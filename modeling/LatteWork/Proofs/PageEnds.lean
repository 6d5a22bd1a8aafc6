import LatteWork.Proofs.HistoryPages
import LatteWork.Workbench.Window

/-!
# Where pages of the history end

A page takes rows as long as it has room (`history_run`), so where pages end is told by the log
alone. The first window is made of the pages up to the first end at which nothing asks for an
earlier page (`initialWindow_reads`).
-/

namespace LatteWork

open Fallible

/-- The text of a row, as it is presented. -/
def EventRow.shownText (agent : String) (row : EventRow) : Option String :=
  (presented agent row.presentationData).asText

/-- A row in front of a stretch is a text in front of a text. -/
def joinsStretch (agent : String) (row : EventRow) (stretch : List EventRow) : Bool :=
  (row.shownText agent).isSome && stretch.head?.any fun r => (r.shownText agent).isSome

/-- What `history` counts for a stretch. -/
def stretchBytes (agent id : String) : List EventRow → ℕ
  | [] => 0
  | row :: stretch => stretchBytes agent id stretch +
    match row.shownText agent with
    | none => row.presentationData.bytes + id.utf8ByteSize + 96
    | some t => t.utf8ByteSize + if joinsStretch agent row stretch then 0 else id.utf8ByteSize + 96

/-- A prompt, as it is presented. -/
def EventRow.shownPrompt (agent : String) (row : EventRow) : Bool :=
  (presented agent row.presentationData).userRequest.isSome

/-- There is room for one more row on a page, whose rows are given from the newest on. -/
def historyRoom (agent id : String) (front : List EventRow) (row : EventRow) : Bool :=
  let stretch := front.reverse
  !(stretch.countP (·.shownPrompt agent) = 2 || stretch.length = 16384 ||
    (!joinsStretch agent row stretch &&
      (coalesce (stretch.map (EventRow.shown agent id))).length = 128) ||
    (256 * 1024 < stretchBytes agent id (row :: stretch) && !stretch.isEmpty))

theorem historyRoom_nil (agent id : String) (row : EventRow) : historyRoom agent id [] row = true := by
  simp [historyRoom, coalesce]

theorem historyRoom_length {agent id : String} {run : List EventRow}
    (h : Paging.Fitting (historyRoom agent id) run) : run.length < 16385 :=
  Nat.lt_succ_of_le (h.length_le fun front row hlen => by simp [historyRoom, hlen])

namespace Store

variable {s : Store} {id : String} {x : Session}

/-- What the loop has counted when it has read a stretch. -/
structure Counted (agent id : String) (scan : HistoryScan) (stretch : List EventRow) : Prop where
  turns : scan.turns = stretch.countP (·.shownPrompt agent)
  bytes : scan.bytes = stretchBytes agent id stretch

theorem ScanInv.headText_eq {agent : String} {scan : HistoryScan} {stretch : List EventRow}
    (h : ScanInv agent id scan stretch) :
    headText scan.events = stretch.head?.any fun r => (r.shownText agent).isSome := by
  rw [← flushHistoryText_head _ scan.textFragments, h.shown]
  rcases stretch with _ | ⟨r, rest⟩
  · rfl
  rw [List.map_cons, coalesce]
  rcases hc : coalesce (rest.map (EventRow.shown agent id)) with _ | ⟨f, more⟩
  · rfl
  · rcases hr : (r.shown agent id).event.asText with _ | t <;>
      rcases hf : f.event.asText with _ | u <;>
      simp_all [joinText, headText, EventRow.shownText, EventRow.shown_event]

theorem ScanInv.joins_eq {agent : String} {scan : HistoryScan} {stretch : List EventRow}
    (h : ScanInv agent id scan stretch) (row : EventRow) :
    scan.joins (presented agent row.presentationData) = joinsStretch agent row stretch := by
  unfold HistoryScan.joins joinsStretch
  rw [← h.headText_eq]
  rfl

theorem ScanInv.cost_eq {agent : String} {scan : HistoryScan} {stretch : List EventRow}
    (h : ScanInv agent id scan stretch) (hc : Counted agent id scan stretch) (row : EventRow) :
    scan.bytes + scan.cost id row.presentationData (presented agent row.presentationData) =
      stretchBytes agent id (row :: stretch) := by
  unfold HistoryScan.cost stretchBytes
  rw [h.joins_eq, hc.bytes]
  rfl

theorem flushHistoryText_length (events : List Event) (fragments : List String) :
    (flushHistoryText events fragments).length = events.length := by
  rcases events with _ | ⟨e, rest⟩
  · rfl
  · simp only [flushHistoryText]
    split <;> rfl

/-- The loop stops where a page has no room. -/
theorem ScanInv.stops_eq {agent : String} {scan : HistoryScan} {front : List EventRow}
    (h : ScanInv agent id scan front.reverse) (hc : Counted agent id scan front.reverse)
    (row : EventRow) :
    scan.stops id row.presentationData (presented agent row.presentationData) =
      !historyRoom agent id front row := by
  have hlen : scan.events.length =
      (coalesce (front.reverse.map (EventRow.shown agent id))).length := by
    rw [← h.shown, flushHistoryText_length]
  have hempty : scan.events.isEmpty = front.reverse.isEmpty := by
    rw [Bool.eq_iff_iff, List.isEmpty_iff, List.isEmpty_iff]
    exact h.empty
  unfold HistoryScan.stops historyRoom
  rw [h.joins_eq, h.cost_eq hc, hlen, hempty, hc.turns, h.count, Bool.not_not]

theorem Counted.take {agent : String} {scan : HistoryScan} {stretch : List EventRow}
    (h : ScanInv agent id scan stretch) (hc : Counted agent id scan stretch) (row : EventRow) :
    Counted agent id
      (scan.take id row row.presentationData (presented agent row.presentationData))
      (row :: stretch) := by
  refine ⟨?_, h.cost_eq hc row⟩
  rw [List.countP_cons, ← hc.turns]
  unfold HistoryScan.take EventRow.shownPrompt
  dsimp only
  split <;> rfl

/-- The loop takes the longest run that has room. -/
theorem historyScan_eq (hx : s.session id = .ok x) :
    ∀ (rows front : List EventRow) (scan : HistoryScan), ScanInv x.agent id scan front.reverse →
      Counted x.agent id scan front.reverse → scan.hasMore = false → scan.splitText = false →
      ∃ scan', ScanInv x.agent id scan'
          (Paging.takeRun (historyRoom x.agent id) front rows).1.reverse ∧
        scan'.hasMore = false ∧ scan'.splitText = false ∧
        s.historyScan id scan rows =
          .ok ((Paging.takeRun (historyRoom x.agent id) front rows).2.head?.elim scan' fun row =>
            scan'.stop (presented x.agent row.presentationData))
  | [], front, scan, h, _, hmore, hsplit => ⟨scan, h, hmore, hsplit, rfl⟩
  | row :: rows, front, scan, h, hc, hmore, hsplit => by
    unfold historyScan Paging.takeRun
    simp only [presentationEvent_eq hx, bind, Except.bind, h.stops_eq hc]
    by_cases hroom : historyRoom x.agent id front row = true
    · have htake := h.take row
      have hcount := hc.take h row
      rw [← List.reverse_concat] at htake hcount
      simp only [hroom, Bool.not_true, Bool.false_eq_true, if_true, if_false]
      exact historyScan_eq hx rows (front ++ [row]) _ htake hcount hmore hsplit
    · rw [Bool.not_eq_true] at hroom
      simp only [hroom, Bool.not_false, Bool.false_eq_true, if_true, if_false]
      exact ⟨scan, h, hmore, hsplit, rfl⟩

/-- A page of `history`: it takes from the newest rows below its cursor what it has room for, and
asks for an earlier page when its end splits a text or an approval before it is still pending. -/
theorem history_run (hx : s.session id = .ok x) (before : Option ℕ) :
    ∃ page stretch rest, s.history id before = .ok page ∧
      Paging.takeRun (historyRoom x.agent id) []
        (Paging.below EventRow.seq (s.sessionLog id) before).reverse =
          (stretch.reverse, rest.reverse) ∧
      page.events = coalesce (stretch.map (EventRow.shown x.agent id)) ∧
      page.hasMore = !rest.isEmpty ∧
      page.before = (if rest.isEmpty then none else stretch.head?.map (·.seq)) ∧
      (rest ≠ [] → page.needsEarlier =
        ((rest.getLast?.any fun row => joinsStretch x.agent row stretch) ||
          stretch.head?.any fun first => s.pendingApproval id first.seq)) := by
  obtain ⟨scan, hinv, hmore, hsplit, hok⟩ := historyScan_eq hx (s.historyRows id before) [] {}
    (scanInv_start x.agent id) ⟨rfl, rfl⟩ rfl rfl
  obtain ⟨htaken, hleft⟩ := Paging.takeRun_take (fun _ => @historyRoom_length x.agent id _)
    (Paging.below EventRow.seq (s.sessionLog id) before).reverse
  have hlimit : s.historyRows id before =
      (Paging.below EventRow.seq (s.sessionLog id) before).reverse.take 16385 := rfl
  rw [hlimit, htaken] at hinv
  rw [hlimit, hleft] at hok
  generalize Paging.takeRun (historyRoom x.agent id) []
    (Paging.below EventRow.seq (s.sessionLog id) before).reverse = run at *
  obtain ⟨front, rest⟩ := run
  dsimp only at hinv hok
  refine ⟨_, front.reverse, rest.reverse, by
    simp only [history, hlimit, hok, bind, Except.bind]; rfl, by rw [List.reverse_reverse, List.reverse_reverse], ?_⟩
  rcases rest with _ | ⟨row, rest⟩
  · simp [hinv.shown, hmore]
  · have holdest : scan.oldest = front.reverse.head?.map (·.seq) := hinv.oldest
    simp only [List.head?_cons, Option.elim_some, HistoryScan.stop, hinv.shown, hinv.joins_eq,
      holdest, Bool.true_and, List.reverse_cons, List.getLast?_concat, Option.any_some,
      Option.any_map]
    simp

end Store

/-- From the rows that are left and those that are shown, those after one more page. -/
def historyCut (agent id : String) (cut : List EventRow × List EventRow) :
    List EventRow × List EventRow :=
  let run := Paging.takeRun (historyRoom agent id) [] cut.1.reverse
  (run.2.reverse, run.1.reverse ++ cut.2)

/-- The rows that `n` pages leave, and those they show. -/
def pagesCut (agent id : String) (log : List EventRow) (n : ℕ) : List EventRow × List EventRow :=
  (historyCut agent id)^[n] (log, [])

theorem pagesCut_succ (agent id : String) (log : List EventRow) (n : ℕ) :
    pagesCut agent id log (n + 1) = historyCut agent id (pagesCut agent id log n) :=
  Function.iterate_succ_apply' _ _ _

theorem historyCut_left (agent id : String) (cut : List EventRow × List EventRow) :
    ∃ stretch, (historyCut agent id cut).1 ++ stretch = cut.1 ∧
      (historyCut agent id cut).2 = stretch ++ cut.2 := by
  obtain ⟨hsplit, -⟩ := Paging.takeRun_spec cut.1.reverse []
    (@Paging.Fitting.nil _ (historyRoom agent id))
  rw [List.nil_append, ← List.reverse_inj, List.reverse_append, List.reverse_reverse] at hsplit
  exact ⟨_, hsplit, rfl⟩

theorem pagesCut_flat (agent id : String) (log : List EventRow) :
    ∀ n, (pagesCut agent id log n).1 ++ (pagesCut agent id log n).2 = log
  | 0 => List.append_nil _
  | n + 1 => by
    obtain ⟨stretch, hleft, hshown⟩ := historyCut_left agent id (pagesCut agent id log n)
    rw [pagesCut_succ, hshown, ← List.append_assoc, hleft]
    exact pagesCut_flat agent id log n

theorem pagesCut_shrinks (agent id : String) (log : List EventRow) {m n : ℕ} (h : m ≤ n) :
    (pagesCut agent id log n).1 ⊆ (pagesCut agent id log m).1 := by
  induction n, h using Nat.le_induction with
  | base => exact List.Subset.refl _
  | succ n _ ih =>
    obtain ⟨stretch, hleft, -⟩ := historyCut_left agent id (pagesCut agent id log n)
    rw [← pagesCut_succ] at hleft
    exact fun row hrow => ih (hleft ▸ List.mem_append_left stretch hrow)

/-- A page of what is not empty shows something. -/
theorem pagesCut_shows (agent id : String) {log : List EventRow} (h : log ≠ []) :
    ∀ n, (pagesCut agent id log (n + 1)).2 ≠ []
  | 0 => by
    intro hnil
    obtain ⟨hsplit, -, hmax⟩ := Paging.takeRun_spec log.reverse []
      (@Paging.Fitting.nil _ (historyRoom agent id))
    have hrun : (Paging.takeRun (historyRoom agent id) [] log.reverse).1 = [] := by
      rw [pagesCut_succ] at hnil
      exact List.reverse_eq_nil_iff.1 (List.append_eq_nil_iff.1 hnil).1
    rw [hrun, List.nil_append, List.nil_append] at hsplit
    rw [hrun, hsplit] at hmax
    obtain ⟨row, rest, hlog⟩ := List.exists_cons_of_ne_nil (List.reverse_ne_nil_iff.2 h)
    have hstop := hmax row (by rw [hlog]; rfl)
    rw [historyRoom_nil] at hstop
    cases hstop
  | n + 1 => by
    obtain ⟨stretch, -, hshown⟩ := historyCut_left agent id (pagesCut agent id log (n + 1))
    rw [pagesCut_succ, hshown]
    exact List.append_ne_nil_of_right_ne_nil _ (pagesCut_shows agent id h n)

theorem mem_joinText_plain {e f : Event} {l : List Event} (hf : f.event.asText = none) :
    f ∈ joinText e l ↔ f = e ∨ f ∈ l := by
  rcases l with _ | ⟨g, rest⟩
  · simp [joinText]
  · rcases he : e.event.asText with _ | t
    · simp [joinText, he]
    · rcases hg : g.event.asText with _ | u
      · simp [joinText, he, hg]
      · have hfe : f ≠ e := by rintro rfl; simp [hf] at he
        have hfg : f ≠ g := by rintro rfl; simp [hf] at hg
        have hft : f ≠ { g with event := .text (t ++ u) } := by rintro rfl; simp at hf
        simp [joinText, he, hg, hfe, hfg, hft]

theorem joinText_seq {e f : Event} {l : List Event} (h : f ∈ joinText e l) :
    ∃ g ∈ e :: l, g.seq = f.seq := by
  rcases l with _ | ⟨g, rest⟩
  · exact ⟨f, h, rfl⟩
  · simp only [joinText] at h
    split at h
    · rcases List.mem_cons.1 h with rfl | h
      · exact ⟨g, by simp, rfl⟩
      · exact ⟨f, by simp [h], rfl⟩
    · exact ⟨f, h, rfl⟩

/-- What joining texts leaves as it is. -/
theorem mem_coalesce_plain {f : Event} (hf : f.event.asText = none) :
    ∀ l : List Event, f ∈ coalesce l ↔ f ∈ l
  | [] => Iff.rfl
  | e :: l => by rw [coalesce, mem_joinText_plain hf, mem_coalesce_plain hf l, List.mem_cons]

theorem coalesce_seq {f : Event} : ∀ {l : List Event}, f ∈ coalesce l → ∃ e ∈ l, e.seq = f.seq
  | [], h => by cases h
  | e :: l, h => by
    rw [coalesce] at h
    obtain ⟨g, hg, hseq⟩ := joinText_seq h
    rcases List.mem_cons.1 hg with rfl | hg
    · exact ⟨g, List.mem_cons_self, hseq⟩
    · obtain ⟨e', he', heq⟩ := coalesce_seq hg
      exact ⟨e', List.mem_cons_of_mem _ he', heq.trans hseq⟩

theorem mem_appendEvents {a b : List Event} {e : Event} :
    e ∈ appendEvents a b ↔ e ∈ a ∨ e ∈ b ∧ e.seq ∉ a.map (·.seq) := by
  rw [appendEvents, (List.perm_insertionSort _ _).mem_iff, List.mem_append, List.mem_filter,
    decide_eq_true_eq]

/-- What a client has of the rows that pages showed it. -/
structure Loaded (agent id : String) (loaded : List Event) (rows : List EventRow) : Prop where
  seqs : ∀ e ∈ loaded, ∃ row ∈ rows, row.seq = e.seq
  plain : ∀ e : Event, e.event.asText = none →
    (e ∈ loaded ↔ e ∈ rows.map (EventRow.shown agent id))

theorem Loaded.nil (agent id : String) : Loaded agent id [] [] := ⟨by simp, by simp⟩

theorem Loaded.page (agent id : String) (stretch : List EventRow) :
    Loaded agent id (coalesce (stretch.map (EventRow.shown agent id))) stretch := by
  refine ⟨fun e he => ?_, fun e he => mem_coalesce_plain he _⟩
  obtain ⟨f, hf, hseq⟩ := coalesce_seq he
  obtain ⟨row, hrow, rfl⟩ := List.mem_map.1 hf
  exact ⟨row, hrow, hseq⟩

theorem Loaded.append {agent id : String} {page replay : List Event} {stretch rows : List EventRow}
    (hpage : Loaded agent id page stretch) (h : Loaded agent id replay rows)
    (hapart : ∀ a ∈ stretch, ∀ b ∈ rows, a.seq < b.seq) :
    Loaded agent id (appendEvents page replay) (stretch ++ rows) := by
  refine ⟨fun e he => ?_, fun e he => ?_⟩
  · rcases mem_appendEvents.1 he with he | ⟨he, -⟩
    · obtain ⟨row, hrow, hseq⟩ := hpage.seqs e he
      exact ⟨row, List.mem_append_left _ hrow, hseq⟩
    · obtain ⟨row, hrow, hseq⟩ := h.seqs e he
      exact ⟨row, List.mem_append_right _ hrow, hseq⟩
  · have hnew : e ∈ replay → e.seq ∉ page.map (·.seq) := by
      intro hr hp
      obtain ⟨f, hf, hseq⟩ := List.mem_map.1 hp
      obtain ⟨row, hrow, hrs⟩ := hpage.seqs f hf
      obtain ⟨row', hrow', hrs'⟩ := h.seqs e hr
      have := hapart row hrow row' hrow'
      omega
    rw [mem_appendEvents, List.map_append, List.mem_append, hpage.plain e he, ← h.plain e he]
    exact or_congr_right (and_iff_left_of_imp hnew)

namespace Store

/-- A page that ends here asks for an earlier one. -/
def asksEarlier (s : Store) (agent id : String) (cut : List EventRow × List EventRow) : Bool :=
  (cut.1.getLast?.any fun row => joinsStretch agent row cut.2) ||
    cut.2.head?.any fun first => s.pendingApproval id first.seq

variable {s : Store} {id : String} {x : Session}

/-- The loop of the first window reads pages up to an end at which nothing asks for an earlier
one. -/
theorem initialWindow_reads (hx : s.session id = .ok x) (hs : s.Ordered) :
    ∀ (fuel k : ℕ) (c : Option ℕ) (replay : List Event),
      Paging.below EventRow.seq (s.sessionLog id) c = (pagesCut x.agent id (s.sessionLog id) k).1 →
      Loaded x.agent id replay (pagesCut x.agent id (s.sessionLog id) k).2 →
      (pagesCut x.agent id (s.sessionLog id) k).1.length < fuel →
      ∃ n loaded page, k < n ∧
        initialWindow (fun c => (s.history id c).toOption) fuel c replay = some (loaded, page) ∧
        Loaded x.agent id loaded (pagesCut x.agent id (s.sessionLog id) n).2 ∧
        ((pagesCut x.agent id (s.sessionLog id) n).1 = [] ∨
          s.asksEarlier x.agent id (pagesCut x.agent id (s.sessionLog id) n) = false) ∧
        ∀ j, k < j → j < n →
          s.asksEarlier x.agent id (pagesCut x.agent id (s.sessionLog id) j) = true
  | 0, _, _, _, _, _, hfuel => absurd hfuel (Nat.not_lt_zero _)
  | fuel + 1, k, c, replay, hbelow, hloaded, hfuel => by
    obtain ⟨page, stretch, rest, hpage, hrun, hevents, hmore, hcursor, hneeds⟩ :=
      s.history_run hx c
    have hlog := sessionLog_ordered hs id
    have hflat := pagesCut_flat x.agent id (s.sessionLog id)
    obtain ⟨hsplit, -, hmax⟩ := Paging.takeRun_spec
      (Paging.below EventRow.seq (s.sessionLog id) c).reverse []
      (@Paging.Fitting.nil _ (historyRoom x.agent id))
    rw [hrun, List.nil_append, ← List.reverse_append, List.reverse_inj] at hsplit
    have hcut : pagesCut x.agent id (s.sessionLog id) (k + 1) =
        (rest, stretch ++ (pagesCut x.agent id (s.sessionLog id) k).2) := by
      rw [pagesCut_succ, historyCut, ← hbelow, hrun, List.reverse_reverse, List.reverse_reverse]
    have hnext : Loaded x.agent id (appendEvents page.events replay)
        (pagesCut x.agent id (s.sessionLog id) (k + 1)).2 := by
      rw [hcut, hevents]
      refine (Loaded.page x.agent id stretch).append hloaded fun a ha b hb => ?_
      rw [← hflat k, ← hbelow, List.pairwise_append] at hlog
      exact hlog.2.2 a (hsplit ▸ List.mem_append_right rest ha) b hb
    unfold initialWindow
    rw [hpage]
    simp only [Except.toOption, Option.bind_some]
    rcases hrest : rest.getLast? with _ | last
    · -- the page has the oldest row
      obtain rfl := List.getLast?_eq_none_iff.1 hrest
      refine ⟨k + 1, appendEvents page.events replay, page, Nat.lt_succ_self k, ?_, hnext,
        .inl (by rw [hcut]), fun j hj hjk => absurd hjk (by omega)⟩
      simp [hmore]
    · have hne : rest ≠ [] := by
        rintro rfl
        cases hrest
      obtain ⟨first, more, rfl⟩ : ∃ first more, stretch = first :: more := by
        refine List.exists_cons_of_ne_nil ?_
        rintro rfl
        rw [hrun] at hmax
        have hstop := hmax last (by rw [List.head?_reverse, hrest]; rfl)
        rw [List.reverse_nil, historyRoom_nil] at hstop
        cases hstop
      rw [if_neg (show ¬rest.isEmpty from by simpa using hne), List.head?_cons,
        Option.map_some] at hcursor
      have hasks : page.needsEarlier =
          s.asksEarlier x.agent id (pagesCut x.agent id (s.sessionLog id) (k + 1)) := by
        rw [hneeds hne, hcut]
        rfl
      have hfirst : first ∈ Paging.below EventRow.seq (s.sessionLog id) c := by
        rw [← hsplit]
        simp
      have hgoes : (page.before.all fun n => c.any (· ≤ n)) = false := by
        rw [hcursor]
        rcases c with _ | c
        · rfl
        · have hlt : first.seq < c := by simpa using (List.mem_filter.1 hfirst).2
          simpa using hlt
      have hasmore : page.hasMore = true := by
        rw [hmore]
        simpa using hne
      rw [hgoes, hasks, hasmore, Bool.and_false, Bool.and_true, if_neg Bool.false_ne_true]
      by_cases ha : s.asksEarlier x.agent id (pagesCut x.agent id (s.sessionLog id) (k + 1)) = true
      · have hbefore : Paging.below EventRow.seq (s.sessionLog id) (some first.seq) =
            (pagesCut x.agent id (s.sessionLog id) (k + 1)).1 := by
          have hall := hflat (k + 1)
          rw [hcut] at hall ⊢
          rw [← hall] at hlog ⊢
          exact Paging.filter_lt_of_split hlog
        rw [← hbelow, ← hsplit, List.length_append, List.length_cons] at hfuel
        obtain ⟨n, loaded, last, hlt, hread, hrest⟩ := initialWindow_reads hx hs fuel (k + 1)
          (some first.seq) _ hbefore hnext (by rw [hcut]; dsimp only; omega)
        refine ⟨n, loaded, last, by omega, ?_, hrest.1, hrest.2.1, fun j hj hjn => ?_⟩
        · rw [if_pos ha, hcursor, Option.some_or]
          exact hread
        · rcases Nat.lt_or_ge (k + 1) j with hj' | hj'
          · exact hrest.2.2 j hj' hjn
          · rwa [show j = k + 1 by omega]
      · rw [if_neg ha]
        exact ⟨k + 1, _, page, Nat.lt_succ_self k, rfl, hnext, .inr (Bool.eq_false_iff.2 ha),
          fun j hj hjk => absurd hjk (by omega)⟩

end Store

end LatteWork
