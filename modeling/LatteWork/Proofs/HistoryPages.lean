import LatteWork.Proofs.HandOff
import LatteWork.Store.History

/-!
# Reading backwards loses nothing

A page of `history` shows the newest stretch of the log below its cursor (`history_cut`): the loop
keeps, row by row, the events that joining the texts of the stretch gives (`ScanInv`). Following
the cursors then shows the whole log (`history_pages`).
-/

namespace LatteWork

open Fallible Table

/-- An event in front of events whose texts are joined: a text joins a text that follows it, under
the number and the time of the newer one. -/
def joinText (e : Event) : List Event → List Event
  | [] => [e]
  | f :: rest =>
    match e.event.asText, f.event.asText with
    | some t, some u => { f with event := .text (t ++ u) } :: rest
    | _, _ => e :: f :: rest

/-- Every maximal run of texts as one text. -/
def coalesce : List Event → List Event
  | [] => []
  | e :: rest => joinText e (coalesce rest)

/-- Two neighbours are not both texts. -/
def Apart (e f : Event) : Prop := ¬(e.event.asText.isSome ∧ f.event.asText.isSome)

/-- The runs that are joined are maximal. -/
theorem coalesce_apart : ∀ l : List Event, (coalesce l).IsChain Apart
  | [] => .nil
  | e :: rest => by
    have ih := coalesce_apart rest
    rw [coalesce]
    rcases hc : coalesce rest with _ | ⟨f, more⟩
    · exact .singleton e
    · rw [hc] at ih
      simp only [joinText]
      rcases he : e.event.asText with _ | t <;> rcases hf : f.event.asText with _ | u <;> simp only
      · exact .cons_cons (by simp [Apart, he]) ih
      · exact .cons_cons (by simp [Apart, he]) ih
      · exact .cons_cons (by simp [Apart, hf]) ih
      · rcases more with _ | ⟨g, more⟩
        · exact .singleton _
        · obtain ⟨hfg, htail⟩ := List.isChain_cons_cons.1 ih
          exact .cons_cons (by simpa [Apart, hf] using hfg) htail

/-- A run of texts in front of anything else is one text: the texts in order, under the number and
the time of the newest. -/
theorem coalesce_run (newest : Event) (t : String) (rest : List Event)
    (hn : newest.event = .text t) (hrest : ∀ f ∈ (coalesce rest).head?, f.event.asText = none) :
    ∀ run : List (Event × String), (∀ e ∈ run, e.1.event = .text e.2) →
      coalesce (run.map Prod.fst ++ newest :: rest) =
        { newest with event := .text (String.join (run.map Prod.snd ++ [t])) } :: coalesce rest
  | [], _ => by
    simp only [List.map_nil, List.nil_append, coalesce, String.join_cons, String.join_nil,
      String.append_empty]
    rcases hc : coalesce rest with _ | ⟨f, more⟩
    · rw [joinText, ← hn]
    · rw [hc] at hrest
      simp only [joinText, hrest f (by simp), ← hn]
      rcases newest.event.asText <;> rfl
  | (e, u) :: run, h => by
    have he : e.event = .text u := h (e, u) List.mem_cons_self
    simp only [List.map_cons, List.cons_append, coalesce,
      coalesce_run newest t rest hn hrest run fun e he => h e (List.mem_cons_of_mem _ he)]
    simp [joinText, he]

/-- How a row of a session is presented, the session's agent being `agent`. -/
def presented (agent : String) (data : EventKind) : EventKind :=
  if data.isToolResult ∧ data.mentionsSource then normalizeHistoryEvent agent data else data

/-- The event a row is shown as. -/
def EventRow.shown (agent id : String) (row : EventRow) : Event where
  seq := row.seq
  sessionId := id
  atMs := row.atMs
  event := presented agent row.presentationData

theorem EventRow.shown_event (agent id : String) (row : EventRow) :
    (row.shown agent id).event = presented agent row.presentationData := by
  rw [EventRow.shown]

theorem EventRow.shown_sessionId (agent id : String) (row : EventRow) :
    (row.shown agent id).sessionId = id := by
  rw [EventRow.shown]

namespace Store

variable {s : Store} {id : String} {x : Session}

theorem presentationEvent_eq (hx : s.session id = .ok x) (data : EventKind) :
    s.presentationEvent id data = .ok (presented x.agent data) := by
  unfold presentationEvent presented
  split
  · simp [hx, bind, Except.bind]
  · rfl

/-- What the loop has when it has read a stretch. -/
structure ScanInv (agent id : String) (scan : HistoryScan) (stretch : List EventRow) : Prop where
  shown : flushHistoryText scan.events scan.textFragments =
    coalesce (stretch.map (EventRow.shown agent id))
  fragments : (scan.events.head?.any fun e => e.event.asText.isSome) = false →
    scan.textFragments = []
  oldest : scan.oldest = stretch.head?.map (·.seq)
  count : scan.count = stretch.length
  turns : stretch = [] → scan.turns = 0
  empty : scan.events = [] ↔ stretch = []

theorem scanInv_start (agent id : String) : ScanInv agent id {} [] :=
  ⟨rfl, fun _ => rfl, rfl, rfl, fun _ => rfl, by simp⟩

/-- The oldest event is a text. -/
abbrev headText (events : List Event) : Bool := events.head?.any fun e => e.event.asText.isSome

theorem flushHistoryText_head (events : List Event) (fragments : List String) :
    headText (flushHistoryText events fragments) = headText events := by
  rcases events with _ | ⟨e, rest⟩
  · rfl
  · simp only [flushHistoryText]
    split <;> simp_all [headText]

theorem joinText_apart {e : Event} {l : List Event}
    (h : (e.event.asText.isSome && headText l) = false) : joinText e l = e :: l := by
  rcases l with _ | ⟨f, rest⟩
  · rfl
  · rcases he : e.event.asText with _ | t <;> rcases hf : f.event.asText with _ | u <;>
      simp_all [joinText, headText]

/-- The step of the loop. -/
theorem ScanInv.take {agent : String} {scan : HistoryScan} {stretch : List EventRow}
    (h : ScanInv agent id scan stretch) (row : EventRow) :
    ScanInv agent id
      (scan.take id row row.presentationData (presented agent row.presentationData))
      (row :: stretch) := by
  obtain ⟨hshown, hfrag, _, hcount, _, hempty⟩ := h
  generalize he : presented agent row.presentationData = event at *
  have hrow : row.shown agent id = ⟨row.seq, id, row.atMs, event⟩ := by rw [EventRow.shown, he]
  have hhead : headText (coalesce (stretch.map (EventRow.shown agent id))) = headText scan.events := by
    rw [← hshown, flushHistoryText_head]
  by_cases hj : scan.joins event
  · -- the row's text goes in front of the text that was read last
    obtain ⟨t, rfl⟩ : ∃ t, event = .text t := by
      simp only [HistoryScan.joins, Bool.and_eq_true] at hj
      obtain ⟨t, ht⟩ := Option.isSome_iff_exists.1 hj.1
      exact ⟨t, EventKind.asText_eq_some.1 ht⟩
    rcases hev : scan.events with _ | ⟨f, rest⟩
    · simp [HistoryScan.joins, hev] at hj
    obtain ⟨u, hu⟩ : ∃ u, f.event = .text u := by
      simp only [HistoryScan.joins, hev, EventKind.asText_text, Option.isSome_some, Bool.true_and,
        List.head?_cons, Option.any_some] at hj
      obtain ⟨u, hu⟩ := Option.isSome_iff_exists.1 hj
      exact ⟨u, EventKind.asText_eq_some.1 hu⟩
    refine ⟨?_, ?_, rfl, by simp [HistoryScan.take, hcount], by simp, ?_⟩
    · simp only [HistoryScan.take, hj, if_true, EventKind.asText_text, Option.toList_some,
        List.singleton_append, hev, flushHistoryText, hu, List.map_cons, coalesce, hrow,
        String.join_cons]
      rw [← hshown, hev]
      simp [flushHistoryText, hu, joinText]
    · simp [HistoryScan.take, hj, hev, hu]
    · simp [HistoryScan.take, hj, hev]
  · -- the row starts an event of its own
    have happart : (event.asText.isSome && headText scan.events) = false := by
      simpa [HistoryScan.joins] using hj
    refine ⟨?_, ?_, rfl, by simp [HistoryScan.take, hcount], by simp, by simp [HistoryScan.take, hj]⟩
    · rw [List.map_cons, coalesce, hrow, joinText_apart (by rw [hhead]; exact happart), ← hshown]
      rcases ht : event.asText with _ | t
      · simp only [HistoryScan.take, hj, ht, Option.isSome_none, Bool.false_eq_true, if_false,
          Option.toList_none, List.append_nil]
        rw [flushHistoryText]
        split
        · rename_i hcon
          subst hcon
          simp at ht
        · rfl
      · obtain rfl := EventKind.asText_eq_some.1 ht
        simp [HistoryScan.take, hj, flushHistoryText]
    · intro hno
      rcases ht : event.asText with _ | t
      · simp [HistoryScan.take, hj, ht]
      · simp [HistoryScan.take, hj, ht] at hno

/-- The first row of a page never stops it. -/
theorem ScanInv.not_stops {agent : String} {scan : HistoryScan}
    (h : ScanInv agent id scan []) (data event : EventKind) : scan.stops id data event = false := by
  have hev : scan.events = [] := h.empty.2 rfl
  have hc : scan.count = 0 := h.count
  simp [HistoryScan.stops, h.turns rfl, hc, hev]

section

/- What else is kept of the bytes counted and the stretch read, row by row. -/
variable {P : ℕ → List EventRow → Prop}
  (hP : ∀ (scan : HistoryScan) (stretch : List EventRow) (row : EventRow),
    ScanInv x.agent id scan stretch →
    scan.stops id row.presentationData (presented x.agent row.presentationData) = false →
    P scan.bytes stretch →
    P (scan.bytes + scan.cost id row.presentationData (presented x.agent row.presentationData))
      (row :: stretch))

include hP

/-- The loop reads a stretch off the newest rows; what it leaves is told by the flag. -/
theorem historyScan_reads (hx : s.session id = .ok x) :
    ∀ (rows stretch : List EventRow) (scan : HistoryScan), ScanInv x.agent id scan stretch →
      P scan.bytes stretch → scan.hasMore = false → scan.count ≤ 16384 →
      ∃ scan' taken rest, s.historyScan id scan rows = .ok scan' ∧ rows = taken ++ rest ∧
        ScanInv x.agent id scan' (taken.reverse ++ stretch) ∧
        P scan'.bytes (taken.reverse ++ stretch) ∧ scan'.hasMore = !rest.isEmpty ∧
        scan'.count ≤ 16384 ∧ (rest = [] ∨ taken.reverse ++ stretch ≠ [])
  | [], stretch, scan, hinv, hbytes, hmore, hcount =>
    ⟨scan, [], [], rfl, rfl, by simpa using hinv, by simpa using hbytes, by simp [hmore], hcount,
      .inl rfl⟩
  | row :: rows, stretch, scan, hinv, hbytes, hmore, hcount => by
    simp only [historyScan, presentationEvent_eq hx, bind, Except.bind]
    split
    · rename_i hstop
      refine ⟨_, [], row :: rows, rfl, rfl, ?_, hbytes, rfl, hcount, .inr fun hnil => ?_⟩
      · exact ⟨hinv.shown, hinv.fragments, hinv.oldest, hinv.count, hinv.turns, hinv.empty⟩
      · obtain rfl : stretch = [] := by simpa using hnil
        simp [hinv.not_stops] at hstop
    · rename_i hgo
      have hlt : scan.count ≠ 16384 := by
        intro heq
        simp [HistoryScan.stops, heq] at hgo
      obtain ⟨scan', taken, rest, hok, hrows, hinv', hbytes', hflag, hcount', hne⟩ :=
        historyScan_reads hx rows (row :: stretch) _ (hinv.take row)
          (hP scan stretch row hinv (Bool.eq_false_iff.2 hgo) hbytes) hmore
          (by simp only [HistoryScan.take]; omega)
      refine ⟨scan', row :: taken, rest, hok, by rw [hrows]; rfl, ?_, ?_, hflag, hcount', ?_⟩
      · simpa using hinv'
      · simpa using hbytes'
      · simp

/-- A page of `history` shows the newest stretch below its cursor, and its own cursor is the
number of the stretch's oldest row when rows are left. -/
theorem history_cut (hx : s.session id = .ok x) (hstart : P 0 []) (before : Option ℕ) :
    ∃ page stretch bytes, s.history id before = .ok page ∧
      page.events = coalesce (stretch.map (EventRow.shown x.agent id)) ∧
      page.hasMore = page.before.isSome ∧
      Paging.Cut EventRow.seq (Paging.below EventRow.seq (s.sessionLog id) before) stretch
        page.before ∧ P bytes stretch := by
  obtain ⟨scan, taken, rest, hok, hrows, hinv, hbytes, hflag, hcount, hne⟩ :=
    historyScan_reads hP hx (s.historyRows id before) [] {} (scanInv_start x.agent id) hstart rfl
      (by simp)
  rw [List.append_nil] at hinv hbytes hne
  generalize hlog : Paging.below EventRow.seq (s.sessionLog id) before = log
  rw [historyRows, hlog] at hrows
  have hsuffix : taken.reverse <:+ log := by
    rw [← List.reverse_prefix, List.reverse_reverse]
    exact (hrows ▸ List.prefix_append taken rest).trans (List.take_prefix _ _)
  have hall : rest = [] → taken.reverse = log := by
    rintro rfl
    have hlen : taken.length ≤ 16384 := by simpa [hinv.count] using hcount
    rw [List.append_nil] at hrows
    rw [← hrows, List.length_take, List.length_reverse] at hlen
    rw [← hrows, List.take_of_length_le (by rw [List.length_reverse]; omega), List.reverse_reverse]
  refine ⟨_, taken.reverse, scan.bytes, by simp only [history, hok, bind, Except.bind]; rfl,
    hinv.shown, ?_, ⟨hsuffix, fun hnone => hall ?_, fun c hc => ?_⟩, hbytes⟩
  · rcases rest with _ | ⟨row, rest⟩
    · simp [hflag]
    · have hsome : scan.oldest.isSome := by
        rw [hinv.oldest]
        rcases htr : taken.reverse with _ | ⟨a, l⟩
        · exact absurd htr (hne.resolve_left (by simp))
        · rfl
      simp [hflag, hsome]
  · rcases rest with _ | ⟨row, rest⟩
    · rfl
    · simp only [hflag, List.isEmpty_cons, Bool.not_false, if_true] at hnone
      rw [hinv.oldest] at hnone
      exact absurd (by simpa using hnone : taken = [])
        (by simpa using hne.resolve_left (by simp))
  · simp only [Option.ite_none_right_eq_some] at hc
    rw [← hc.2, hinv.oldest]

end

/-- The log is in the order of its numbers. -/
def Ordered (s : Store) : Prop := s.events.Pairwise (·.seq < ·.seq)

theorem sessionLog_eq (hs : s.Ordered) (id : String) :
    s.sessionLog id = s.events.filter (·.sessionId = id) :=
  ((hs.imp fun h => Nat.le_of_lt h).filter _).insertionSort_eq

theorem sessionLog_ordered (hs : s.Ordered) (id : String) :
    (s.sessionLog id).Pairwise (·.seq < ·.seq) := by
  rw [sessionLog_eq hs]
  exact hs.filter _

/-- Reading a session backwards shows its whole log. Following the cursors from none ends; the
cursors go down; the pages, oldest first, show consecutive stretches of the log that together are
the log, each with its runs of texts joined. -/
theorem history_pages (s : Store) (id : String) (x : Session) (hx : s.session id = .ok x)
    (hs : s.Ordered) :
    ∃ (pages : List HistoryPage) (stretches : List (List EventRow)),
      (∀ fuel, (s.sessionLog id).length < fuel →
        Paging.follow (fun c => (s.history id c).toOption) HistoryPage.before fuel none =
          some pages) ∧
      List.Forall₂ (fun page stretch =>
        page.events = coalesce (stretch.map (EventRow.shown x.agent id)) ∧
          page.events.IsChain Apart ∧ page.hasMore = page.before.isSome) pages stretches ∧
      stretches.flatten = s.events.filter (·.sessionId = id) ∧
      (pages.filterMap (·.before)).Pairwise (· < ·) := by
  have hpage : ∀ c, ∃ p stretch, (s.history id c).toOption = some p ∧
      (p.events = coalesce (stretch.map (EventRow.shown x.agent id)) ∧
        p.events.IsChain Apart ∧ p.hasMore = p.before.isSome) ∧
      Paging.Cut EventRow.seq (Paging.below EventRow.seq (s.sessionLog id) c) stretch p.before := by
    intro c
    obtain ⟨p, stretch, _, hp, hev, hmore, hcut, -⟩ :=
      history_cut (P := fun _ _ => True) (fun _ _ _ _ _ _ => trivial) hx trivial c
    exact ⟨p, stretch, by rw [hp]; rfl, ⟨hev, hev ▸ coalesce_apart _, hmore⟩, hcut⟩
  have hcover := Paging.follow_covers (sessionLog_ordered hs id) hpage
  obtain ⟨pages, stretches, hf, hall, hflat, hdown, _⟩ :=
    hcover ((s.sessionLog id).length + 1) none (Nat.lt_succ_self _)
  refine ⟨pages, stretches, fun fuel hfuel => Paging.follow_mono hf hfuel, hall, ?_, hdown⟩
  rw [hflat, ← sessionLog_eq hs]
  rfl

def answeredSession : Session where
  id := "s"
  projectId := "p"
  title := "t"
  agent := "claude"
  status := .completed
  createdAt := 0

/-- A session whose log has a prompt and an answer in two pieces. -/
def answered : Store where
  sessions := [answeredSession]
  events :=
    [{ seq := 1, sessionId := "s", atMs := 0, event := .user "q" "r" },
      { seq := 2, sessionId := "s", atMs := 1, event := .text "an" },
      { seq := 3, sessionId := "s", atMs := 2, event := .text "swer" }]
  lastSeq := 3

theorem history_pages_answered :
    ∃ (pages : List HistoryPage) (stretches : List (List EventRow)),
      (∀ fuel, (answered.sessionLog "s").length < fuel →
        Paging.follow (fun c => (answered.history "s" c).toOption) HistoryPage.before fuel none =
          some pages) ∧
      List.Forall₂ (fun page stretch =>
        page.events = coalesce (stretch.map (EventRow.shown answeredSession.agent "s")) ∧
          page.events.IsChain Apart ∧ page.hasMore = page.before.isSome) pages stretches ∧
      stretches.flatten = answered.events.filter (·.sessionId = "s") ∧
      (pages.filterMap (·.before)).Pairwise (· < ·) :=
  history_pages answered "s" answeredSession (session_eq_ok.2 rfl) (by simp [Ordered, answered])

/-- The rows are numbered from one on. -/
def Numbered (s : Store) : Prop :=
  s.events.map (·.seq) = List.range' 1 s.events.length ∧ s.lastSeq = s.events.length

theorem Grew.numbered {P : EventKind → Prop} {t : Store} (h : Grew P s t) (hs : s.Numbered) :
    t.Numbered := by
  obtain ⟨l, hl, hseq, hlast, _⟩ := h
  obtain ⟨hs, hsl⟩ := hs
  refine ⟨?_, by rw [hlast, hsl, hl, List.length_append]⟩
  rw [hl, List.map_append, hs, hseq, hsl, List.length_append, ← List.range'_append_1, Nat.add_comm 1]

theorem apply_grew {t : Store} {o : StoreOp × ℕ} (h : s.apply o = .ok t) :
    Grew (fun _ => True) s t := by
  obtain ⟨op, now⟩ := o
  by_cases hb : ∃ id r, op = .begin id r
  · obtain ⟨id, r, rfl⟩ := hb
    simp only [apply, map_eq_ok] at h
    obtain ⟨⟨t, new⟩, h, rfl⟩ := h
    obtain ⟨_, rfl, _⟩ | ⟨_, _, x, _, _, _, rfl⟩ := beginTurn_cases h
    · exact .refl _
    · exact ((Grew.of_eq rfl rfl).insertEvent trivial).insertEvent trivial |>.trans (.of_eq rfl rfl)
  by_cases hm : ∃ id q n, op = .markForwarded id q n
  · obtain ⟨id, q, n, rfl⟩ := hm
    obtain ⟨_, _, _, _, _, _, rfl⟩ := markForwarded_cases h
    exact (Grew.insertEvent (.of_eq rfl rfl) trivial).trans (.of_eq rfl rfl)
  exact (apply_logged h (fun id r e => hb ⟨id, r, e⟩) fun id q n e => hm ⟨id, q, n, e⟩).mono
    fun _ _ => trivial

theorem after_numbered (projects : List Project) (ops : List (StoreOp × ℕ)) :
    ((Store.empty projects).after ops).Numbered :=
  Runs.run_keeps (P := Numbered) (by simp [Numbered, empty])
    (fun _ _ hs => Runs.attempt_keeps (fun _ h => (apply_grew h).numbered hs) hs) ops

/-- Every reachable log is in order. -/
theorem after_ordered (projects : List Project) (ops : List (StoreOp × ℕ)) :
    ((Store.empty projects).after ops).Ordered := by
  rw [Ordered, ← List.pairwise_map (f := EventRow.seq) (R := (· < ·)),
    (after_numbered projects ops).1]
  exact List.pairwise_lt_range'

/-- Every reachable row has a number above the cursor a client starts with. -/
theorem after_positive (projects : List Project) (ops : List (StoreOp × ℕ)) :
    ∀ row ∈ ((Store.empty projects).after ops).events, 0 < row.seq := by
  intro row hrow
  have hmem := List.mem_map_of_mem (f := EventRow.seq) hrow
  rw [(after_numbered projects ops).1, List.mem_range'_1] at hmem
  exact hmem.1

end Store

end LatteWork
