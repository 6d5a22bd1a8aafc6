import LatteWork.Proofs.PageEnds
import LatteWork.Lib.KeyedMerge
import LatteWork.Workbench.Activity

/-!
# Pending requests are visible

A request that is loaded without what resolves it is shown as one that can be answered. The server
makes a client load every pending approval; a pending question it leaves behind a page's end, unless
something else makes the client go on there.
-/

namespace LatteWork

namespace EventKind

/-- A request that waits for the user. -/
def asks : EventKind → Bool
  | approval .. | question .. => true
  | _ => false

def isQuestion : EventKind → Bool
  | question .. => true
  | _ => false

/-- An event resolves a request. -/
def resolves : EventKind → EventKind → Prop
  | approvalResolved requestId _, approval request _ _ _ => requestId = request
  | questionResolved requestId _, question request _ _ => requestId = request
  | _, _ => False

end EventKind

/-- A request that can be answered. -/
def pendingItem (seq : ℕ) (value : EventKind) : Item := .event seq value (some false) none none

section Transcript

variable {m : TranscriptMaps}

/-- Only the assistant's last item is changed. -/
theorem TranscriptScan.step_keeps {scan : TranscriptScan} {seq : ℕ} {value : EventKind}
    (h : pendingItem seq value ∈ scan.items) (e : Event) :
    pendingItem seq value ∈ (scan.step m e).items := by
  have hpush : ∀ item, pendingItem seq value ∈ (scan.push item).items := fun item =>
    List.mem_cons_of_mem _ h
  have hsay : ∀ n text, pendingItem seq value ∈ (scan.say n text).items := by
    intro n text
    unfold TranscriptScan.say
    split
    · rename_i key said rest heq
      rw [heq] at h
      rcases List.mem_cons.1 h with h | h
      · cases h
      · exact List.mem_cons_of_mem _ h
    · exact hpush _
  unfold TranscriptScan.step
  split
  · split_ifs
    · exact h
    · exact hpush _
  · exact h
  · exact h
  · exact h
  · split_ifs
    · exact hpush _
    · exact h
  · exact hpush _
  · exact hsay _ _
  · exact hpush _
  · exact hpush _
  · split_ifs
    · exact hpush _
    · exact h
  · exact h
  · exact h
  · exact hpush _
  · exact hpush _
  · exact hpush _

theorem TranscriptScan.steps_keep {seq : ℕ} {value : EventKind} (events : List Event)
    {scan : TranscriptScan} (h : pendingItem seq value ∈ scan.items) :
    pendingItem seq value ∈ (events.foldl (TranscriptScan.step m) scan).items := by
  induction events generalizing scan with
  | nil => exact h
  | cons e _ ih => exact ih (TranscriptScan.step_keeps h e)

end Transcript

/-- A request among the loaded events, without what resolves it. -/
structure Pending (loaded : List Event) (e : Event) : Prop where
  mem : e ∈ loaded
  asks : e.event.asks
  unresolved : ∀ r ∈ loaded, ¬r.event.resolves e.event
  running : ∀ r ∈ loaded, e.seq < r.seq → r.event.terminal = false

section Pending

variable {loaded : List Event} {e : Event}

theorem Pending.ended_eq (h : Pending loaded e)
    (receipts : List ((String × String) × String × ℕ)) :
    (TranscriptMaps.ofEvents receipts loaded).ended e.seq = false := by
  unfold TranscriptMaps.ended TranscriptMaps.ofEvents
  rw [List.any_eq_false]
  intro stop hstop
  obtain ⟨r, hr, hrs⟩ := List.mem_filterMap.1 hstop
  by_cases hterm : r.event.terminal = true
  · obtain rfl : r.seq = stop := by simpa [hterm] using hrs
    intro hlt
    rw [h.running r hr (of_decide_eq_true hlt)] at hterm
    cases hterm
  · simp [hterm] at hrs

theorem Pending.lookup_eq (h : Pending loaded e) {β : Type} {g : Event → Option (String × β)}
    {requestId : String} (hg : ∀ r v, g r = some (requestId, v) → r.event.resolves e.event) :
    (loaded.filterMap g).reverse.lookup requestId = none := by
  rw [List.lookup_eq_none_iff]
  intro v hv
  obtain ⟨r, hr, hrv⟩ := List.mem_filterMap.1 (List.mem_reverse.1 hv)
  rw [bne_iff_ne]
  rintro rfl
  exact h.unresolved r hr (hg r v.2 hrv)

theorem Pending.step (h : Pending loaded e) (receipts : List ((String × String) × String × ℕ))
    (scan : TranscriptScan) :
    pendingItem e.seq e.event ∈ (scan.step (.ofEvents receipts loaded) e).items := by
  have hended := h.ended_eq receipts
  rcases hev : e.event <;> have hasks := h.asks <;> rw [hev] at hasks <;> try cases hasks
  · rename_i requestId id questions
    have hnone : (TranscriptMaps.ofEvents receipts loaded).answered.lookup requestId = none := by
      refine h.lookup_eq fun r v hr => ?_
      split at hr
      · rename_i hres
        simp only [Option.some.injEq, Prod.mk.injEq] at hr
        rw [hres, hev]
        exact hr.1
      · cases hr
    simp only [TranscriptScan.step, hev, hnone, hended]
    exact List.mem_cons_self
  · rename_i requestId id tool input
    have hnone : (TranscriptMaps.ofEvents receipts loaded).resolved.lookup requestId = none := by
      refine h.lookup_eq fun r v hr => ?_
      split at hr
      · rename_i hres
        simp only [Option.some.injEq, Prod.mk.injEq] at hr
        rw [hres, hev]
        exact hr.1
      · cases hr
    simp only [TranscriptScan.step, hev, hnone, hended]
    exact List.mem_cons_self

theorem Pending.mem_transcript (h : Pending loaded e)
    (receipts : List ((String × String) × String × ℕ)) :
    pendingItem e.seq e.event ∈ transcript loaded receipts := by
  unfold transcript
  refine List.mem_filter.2 ⟨List.mem_reverse.2 ?_, ?_⟩
  · obtain ⟨front, rest, hsplit⟩ := List.append_of_mem h.mem
    nth_rewrite 2 [hsplit]
    rw [List.foldl_append, List.foldl_cons]
    exact TranscriptScan.steps_keep rest (h.step receipts _)
  · have := h.asks
    unfold pendingItem Item.visible
    split
    · rename_i heq
      simp only [Item.event.injEq] at heq
      rw [heq.2.1] at this
      cases this
    · rfl

end Pending

namespace ActivityScan

variable {scan : ActivityScan} {row : ActivityRow}

theorem setTools_rows (f : ToolActivity → ToolActivity) (indices : List ℕ) (scan : ActivityScan) :
    (indices.foldl (fun scan index => scan.setTool index f) scan).rows = scan.rows := by
  induction indices generalizing scan with
  | nil => rfl
  | cons index _ ih => exact ih (scan.setTool index f)

theorem finish_rows (scan : ActivityScan) : scan.finish.rows = scan.rows :=
  setTools_rows _ _ _

theorem pass_rows (scan : ActivityScan) (key : ℕ) : (scan.pass key).rows = scan.rows := by
  unfold pass
  split_ifs
  · exact scan.finish_rows
  · rfl

theorem result_keeps (h : row ∈ scan.rows) (key : ℕ) (id : String) (content : Json)
    (isError : Bool) : row ∈ (scan.result key id content isError).rows := by
  unfold result
  dsimp only
  have himages : ∀ scan' : ActivityScan, row ∈ scan'.rows →
      row ∈ (if (toolOutput content).2.isEmpty then scan'
        else scan'.push (.toolImages key (toolOutput content).2)).rows := by
    intro scan' h'
    split_ifs
    · exact h'
    · exact List.mem_cons_of_mem _ h'
  refine himages _ ?_
  split
  · exact h
  · exact List.mem_cons_of_mem _ h

theorem take_keeps (h : row ∈ scan.rows) (item : Item) : row ∈ (scan.take item).rows := by
  unfold take
  split
  · refine List.mem_cons_of_mem _ ?_
    split_ifs
    · exact h
    · rwa [finish_rows]
  · exact List.mem_cons_of_mem _ h
  · split
    · exact List.mem_cons_of_mem _ h
    · exact result_keeps h _ _ _ _
    · split
      · exact List.mem_cons_of_mem _ h
      · exact List.mem_cons_of_mem _ h

theorem steps_keep (items : List Item) (h : row ∈ scan.rows) :
    row ∈ (items.foldl step scan).rows := by
  induction items generalizing scan with
  | nil => exact h
  | cons item _ ih =>
    refine ih (take_keeps ?_ item)
    rwa [pass_rows]

/-- A pending request gets a row. -/
theorem step_asks {seq : ℕ} {value : EventKind} (hasks : value.asks) (scan : ActivityScan) :
    ∃ tool, .item (pendingItem seq value) tool ∈ (scan.step (pendingItem seq value)).rows := by
  unfold step take pendingItem
  dsimp only
  split
  · cases hasks
  · cases hasks
  · split
    · exact ⟨_, List.mem_cons_self⟩
    · exact ⟨_, List.mem_cons_self⟩

end ActivityScan

/-- Grouping keeps the rows that are no calls. -/
theorem groupRow_keeps {tools : List ToolActivity} {attached : List ℕ} {grouped : List ActivityItem}
    {item : Item} {tool : Option ToolActivity} (h : .item item tool ∈ grouped)
    (row : ActivityRow) : .item item tool ∈ groupRow tools attached grouped row := by
  unfold groupRow
  split
  · exact List.mem_cons_of_mem _ h
  · exact List.mem_cons_of_mem _ h
  · split_ifs
    · exact h
    · split
      · exact h
      · split_ifs
        · split
          · rcases List.mem_cons.1 h with h | h
            · cases h
            · exact List.mem_cons_of_mem _ h
          · split_ifs
            · rcases List.mem_cons.1 h with h | h
              · cases h
              · exact List.mem_cons_of_mem _ h
            · exact List.mem_cons_of_mem _ h
          · exact List.mem_cons_of_mem _ h
        · exact List.mem_cons_of_mem _ h

theorem groupRows_mem {tools : List ToolActivity} {attached : List ℕ} {item : Item}
    {approvalTool : Option ℕ} : ∀ (rows : List ActivityRow) (grouped : List ActivityItem),
      .item item approvalTool ∈ rows →
        ∃ tool, .item item tool ∈ rows.foldl (groupRow tools attached) grouped
  | [], _, h => by cases h
  | row :: rows, grouped, h => by
    rcases List.mem_cons.1 h with rfl | h
    · refine ⟨approvalTool.bind fun index => tools[index]?, ?_⟩
      have hkeep : ∀ (rows : List ActivityRow) (grouped : List ActivityItem),
          .item item (approvalTool.bind fun index => tools[index]?) ∈ grouped →
            .item item (approvalTool.bind fun index => tools[index]?) ∈
              rows.foldl (groupRow tools attached) grouped := by
        intro rows
        induction rows with
        | nil => exact fun _ h => h
        | cons row _ ih => exact fun grouped h => ih _ (groupRow_keeps h row)
      exact hkeep rows _ List.mem_cons_self
    · exact groupRows_mem rows _ h

/-- A request that is loaded without what resolves it is shown, and can be answered. -/
theorem Pending.shown {loaded : List Event} {e : Event} (h : Pending loaded e) :
    ∃ tool, .item (pendingItem e.seq e.event) tool ∈ activityTranscript loaded := by
  have hmem := h.mem_transcript (queuedInputReceipts loaded)
  obtain ⟨tool, htool⟩ : ∃ tool, .item (pendingItem e.seq e.event) tool ∈
      (activityScan loaded (queuedInputReceipts loaded)).rows := by
    obtain ⟨front, rest, hsplit⟩ := List.append_of_mem hmem
    unfold activityScan
    dsimp only
    rw [hsplit, List.foldl_append, List.foldl_cons]
    obtain ⟨tool, htool⟩ := @ActivityScan.step_asks e.seq e.event h.asks
      (front.foldl ActivityScan.step
        { terminal := loaded.filterMap fun e => if e.event.terminal then some e.seq else none })
    have hkept := ActivityScan.steps_keep rest htool
    refine ⟨tool, ?_⟩
    split_ifs
    · rwa [ActivityScan.finish_rows]
    · exact hkept
  obtain ⟨tool, hgrouped⟩ := groupRows_mem _ [] (List.mem_reverse.2 htool)
  exact ⟨tool, List.mem_reverse.2 hgrouped⟩

/-- How a row is presented: as it is, unless it is too large or a result. -/
theorem EventRow.shown_eq {agent id : String} {row : EventRow} (h : row.event.bytes ≤ 524288)
    (hres : row.event.isToolResult = false) : (row.shown agent id).event = row.event := by
  rw [EventRow.shown_event, EventRow.presentationData, if_neg (Nat.not_lt.2 h), presented, hres]
  rfl

/-- What is neither a notice nor a result is the row's own. -/
theorem EventRow.event_of_shown {agent id : String} {row : EventRow} {event : EventKind}
    (h : (row.shown agent id).event = event) (hres : event.isToolResult = false)
    (hnotice : ∀ t, event ≠ .notice t) : row.event = event ∧ row.event.bytes ≤ 524288 := by
  rw [EventRow.shown_event, EventRow.presentationData] at h
  split_ifs at h with hbytes
  · exact absurd h.symm (hnotice _)
  · refine ⟨?_, Nat.not_lt.1 hbytes⟩
    unfold presented at h
    split_ifs at h with hcond
    · obtain ⟨i, content, isError, he⟩ :
          ∃ i content isError, row.event = .toolResult i content isError := by
        rcases hev : row.event <;> simp_all [EventKind.isToolResult]
      rw [he] at h
      rw [← h] at hres
      cases hres
    · exact h

namespace Store

variable {s : Store} {id : String} {x : Session}

/-- The number of a session's last prompt. -/
def lastPrompt (s : Store) (id : String) : ℕ :=
  (((s.sessionLog id).filter fun u => u.event.userRequest.isSome).map (·.seq)).foldr max 0

/-- A row of the last turn is a request that nothing resolved and no state ended. -/
structure Waiting (s : Store) (id : String) (row : EventRow) : Prop where
  logged : row ∈ s.sessionLog id
  turn : s.lastPrompt id < row.seq
  asks : row.event.asks
  unresolved : ∀ r ∈ s.sessionLog id, ¬r.event.resolves row.event
  running : ∀ r ∈ s.sessionLog id, row.seq < r.seq → r.event.terminal = false

/-- A row is loaded, and the client shows it as a request that can be answered. -/
structure Answerable (events : List Event) (row : EventRow) : Prop where
  loaded : ∃ e ∈ events, e.seq = row.seq ∧ e.event = row.event
  shown : ∃ tool, .item (pendingItem row.seq row.event) tool ∈ activityTranscript events

theorem not_text_of_asks {e : EventKind} (h : e.asks) : e.asText = none := by
  cases e <;> first | rfl | cases h

theorem not_result_of_asks {e : EventKind} (h : e.asks) : e.isToolResult = false := by
  cases e <;> first | rfl | cases h

theorem eq_of_seq (hs : s.Ordered) {a b : EventRow} (ha : a ∈ s.sessionLog id)
    (hb : b ∈ s.sessionLog id) (hseq : a.seq = b.seq) : a = b :=
  KeyedMerge.eq_of_key (sessionLog_ordered hs id) ha hb hseq

variable {loaded : List Event} {rows : List EventRow} {row : EventRow}

/-- What the client shows of a request that waits, when it is among the rows that were loaded. -/
theorem Waiting.answerable (h : s.Waiting id row) (hrows : rows ⊆ s.sessionLog id)
    (hloaded : Loaded x.agent id loaded rows) (hrow : row ∈ rows) (hbytes : row.event.bytes ≤ 524288) :
    Answerable loaded row := by
  have hshown := @EventRow.shown_eq x.agent id row hbytes (not_result_of_asks h.asks)
  have hmem : row.shown x.agent id ∈ loaded := by
    refine (hloaded.plain _ ?_).2 (List.mem_map_of_mem hrow)
    rw [hshown]
    exact not_text_of_asks h.asks
  have hown : ∀ e ∈ loaded, e.event.asText = none → e.event.isToolResult = false →
      (∀ t, e.event ≠ .notice t) → ∃ r ∈ s.sessionLog id, r.seq = e.seq ∧ r.event = e.event := by
    intro e he htext hres hnotice
    obtain ⟨r, hr, rfl⟩ := List.mem_map.1 ((hloaded.plain e htext).1 he)
    exact ⟨r, hrows hr, rfl, (EventRow.event_of_shown rfl hres hnotice).1⟩
  have hpending : Pending loaded (row.shown x.agent id) := by
    refine ⟨hmem, by rw [hshown]; exact h.asks, fun e he hresolves => ?_, fun e he hlt => ?_⟩
    · rw [hshown] at hresolves
      obtain ⟨r, hr, -, hevent⟩ := hown e he
        (by revert hresolves; cases e.event <;> first | exact fun _ => rfl | exact fun h => h.elim)
        (by revert hresolves; cases e.event <;> first | exact fun _ => rfl | exact fun h => h.elim)
        (by rintro t ht; rw [ht] at hresolves; exact hresolves)
      exact h.unresolved r hr (by rwa [hevent])
    · by_contra hterm
      rw [Bool.not_eq_false] at hterm
      obtain ⟨r, hr, hseq, hevent⟩ := hown e he
        (by revert hterm; cases e.event <;> first | exact fun _ => rfl | exact fun h => by cases h)
        (by revert hterm; cases e.event <;> first | exact fun _ => rfl | exact fun h => by cases h)
        (by rintro t ht; rw [ht] at hterm; cases hterm)
      have := h.running r hr (by rw [hseq]; exact hlt)
      rw [hevent, hterm] at this
      cases this
  have hitem := hpending.shown
  rw [hshown] at hitem
  exact ⟨⟨_, hmem, rfl, hshown⟩, hitem⟩

/-- A request is loaded as what it is only when its row was shown, and is not too large. -/
theorem Answerable.shown_row (hs : s.Ordered) (h : s.Waiting id row)
    (hrows : rows ⊆ s.sessionLog id) (hloaded : Loaded x.agent id loaded rows)
    (ha : Answerable loaded row) : row ∈ rows ∧ row.event.bytes ≤ 524288 := by
  obtain ⟨e, he, hseq, hevent⟩ := ha.loaded
  have htext : e.event.asText = none := by
    rw [hevent]
    exact not_text_of_asks h.asks
  obtain ⟨r, hr, rfl⟩ := List.mem_map.1 ((hloaded.plain e htext).1 he)
  obtain rfl := eq_of_seq hs (hrows hr) h.logged hseq
  refine ⟨hr, (EventRow.event_of_shown hevent (not_result_of_asks h.asks) fun t ht => ?_).2⟩
  have := h.asks
  rw [ht] at this
  cases this

/-- An approval that waits before the rows that are shown makes the server ask for more. -/
theorem Waiting.asksEarlier (h : s.Waiting id row) (hs : s.Ordered) {cut : List EventRow × List EventRow}
    (hflat : cut.1 ++ cut.2 = s.sessionLog id) (hleft : row ∈ cut.1) (hshown : cut.2 ≠ [])
    (hq : row.event.isQuestion = false) : s.asksEarlier x.agent id cut = true := by
  obtain ⟨first, more, hcut⟩ := List.exists_cons_of_ne_nil hshown
  have hlt : row.seq < first.seq := by
    have hlog := sessionLog_ordered hs id
    rw [← hflat, List.pairwise_append] at hlog
    exact hlog.2.2 row hleft first (by rw [hcut]; exact List.mem_cons_self)
  obtain ⟨requestId, tool, name, input, hev⟩ :
      ∃ requestId tool name input, row.event = .approval requestId tool name input := by
    have := h.asks
    rcases hev : row.event <;> rw [hev] at this hq <;> simp_all [EventKind.asks, EventKind.isQuestion]
  unfold Store.asksEarlier
  rw [hcut, Bool.or_eq_true]
  refine .inr ?_
  rw [List.head?_cons, Option.any_some]
  unfold pendingApproval
  refine List.any_eq_true.2 ⟨row, h.logged, ?_⟩
  have hturn : s.lastPrompt id < row.seq := h.turn
  rw [hev]
  simp only [Bool.and_eq_true, decide_eq_true_eq]
  refine ⟨⟨⟨hlt, hturn⟩, ?_⟩, ?_⟩
  · rw [Bool.not_eq_true', List.any_eq_false]
    intro e he
    rw [Bool.not_eq_true, Bool.and_eq_false_imp]
    exact fun hafter => h.running e he (of_decide_eq_true hafter)
  · rw [Bool.not_eq_true', List.any_eq_false]
    intro r hr hboth
    rw [Bool.and_eq_true] at hboth
    refine h.unresolved r hr ?_
    rw [hev]
    revert hboth
    rcases r.event <;> rintro ⟨-, hres⟩ <;> first | exact (of_decide_eq_true hres : _ = _) | cases hres

/-- Pending requests are visible. The loop that loads the first window ends, and then every request
of the last turn that waits is shown and can be answered, if and only if each one's row is within the
512 KiB that are presented as they are, and wherever a page of the log ends behind a question that
waits, something makes the client go on there: a text that is split, or an approval that waits
before that end. -/
theorem pending_requests_visible (s : Store) (id : String) (x : Session)
    (hx : s.session id = .ok x) (hs : s.Ordered) :
    ∃ loaded page,
      (∀ fuel, (s.sessionLog id).length < fuel →
        initialWindow (fun before => (s.history id before).toOption) fuel none [] =
          some (loaded, page)) ∧
      ((∀ row, s.Waiting id row → Answerable loaded row) ↔
        ∀ row, s.Waiting id row → row.event.bytes ≤ 524288 ∧
          (row.event.isQuestion →
            ∀ n, row ∈ (pagesCut x.agent id (s.sessionLog id) (n + 1)).1 →
              s.asksEarlier x.agent id (pagesCut x.agent id (s.sessionLog id) (n + 1)))) := by
  have hflat := pagesCut_flat x.agent id (s.sessionLog id)
  obtain ⟨n, loaded, page, hn, hread, hloaded, hend, hpassed⟩ :=
    initialWindow_reads hx hs ((s.sessionLog id).length + 1) 0 none [] rfl (.nil _ _)
      (Nat.lt_succ_self _)
  have hrows : (pagesCut x.agent id (s.sessionLog id) n).2 ⊆ s.sessionLog id := by
    intro row hrow
    rw [← hflat n]
    exact List.mem_append_right _ hrow
  refine ⟨loaded, page, fun fuel hfuel => initialWindow_mono hread hfuel, fun h row hrow => ?_,
    fun h row hrow => ?_⟩
  · obtain ⟨hmem, hbytes⟩ := (h row hrow).shown_row hs hrow hrows hloaded
    refine ⟨hbytes, fun _ k hk => hpassed (k + 1) (Nat.succ_pos k) ?_⟩
    -- the loop went past every end the row is before
    by_contra hge
    have hleft := pagesCut_shrinks x.agent id (s.sessionLog id) (Nat.le_of_not_lt hge) hk
    have hlog := sessionLog_ordered hs id
    rw [← hflat n, List.pairwise_append] at hlog
    exact Nat.lt_irrefl _ (hlog.2.2 row hleft row hmem)
  · obtain ⟨hbytes, hquestion⟩ := h row hrow
    refine hrow.answerable hrows hloaded ?_ hbytes
    have hmem := hrow.logged
    rw [← hflat n, List.mem_append] at hmem
    refine hmem.resolve_left fun hleft => ?_
    have hstop := hend.resolve_left (List.ne_nil_of_mem hleft)
    obtain ⟨m, rfl⟩ : ∃ m, n = m + 1 := ⟨n - 1, by omega⟩
    have hasks : s.asksEarlier x.agent id (pagesCut x.agent id (s.sessionLog id) (m + 1)) = true := by
      rcases hq : row.event.isQuestion
      · exact hrow.asksEarlier hs (hflat (m + 1)) hleft
          (pagesCut_shows x.agent id (List.ne_nil_of_mem hrow.logged) m) hq
      · exact hquestion hq m hleft
    rw [hasks] at hstop
    cases hstop

def waitingSession : Session where
  id := "s"
  projectId := "p"
  title := "t"
  agent := "claude"
  status := .waiting
  createdAt := 0

def askedQuestion : UserQuestion where
  id := "1"
  header := "h"
  text := "t"
  options := [⟨"yes", ""⟩, ⟨"no", ""⟩]
  multiSelect := false

/-- A call, made while the question waits. -/
def callRow (n : ℕ) : EventRow where
  seq := n + 3
  sessionId := "s"
  atMs := 0
  event := .tool "c" "Read" .null

/-- A turn asks, and 128 calls follow. -/
def asked : Store where
  sessions := [waitingSession]
  events :=
    [{ seq := 1, sessionId := "s", atMs := 0, event := .user "q" "r" },
      { seq := 2, sessionId := "s", atMs := 0, event := .question "a" none [askedQuestion] }] ++
    (List.range 128).map callRow
  lastSeq := 130

theorem asked_ordered : asked.Ordered := by
  rw [Ordered, ← List.pairwise_map (f := EventRow.seq) (R := (· < ·))]
  decide +kernel

theorem pending_requests_visible_asked :
    ∃ loaded page,
      (∀ fuel, (asked.sessionLog "s").length < fuel →
        initialWindow (fun before => (asked.history "s" before).toOption) fuel none [] =
          some (loaded, page)) ∧
      ((∀ row, asked.Waiting "s" row → Answerable loaded row) ↔
        ∀ row, asked.Waiting "s" row → row.event.bytes ≤ 524288 ∧
          (row.event.isQuestion →
            ∀ n, row ∈ (pagesCut "claude" "s" (asked.sessionLog "s") (n + 1)).1 →
              asked.asksEarlier "claude" "s"
                (pagesCut "claude" "s" (asked.sessionLog "s") (n + 1)))) :=
  pending_requests_visible asked "s" waitingSession (session_eq_ok.2 rfl) asked_ordered

theorem asked_window :
    (initialWindow (fun before => (asked.history "s" before).toOption) 1 none []).map
      (fun w => w.1.map (·.seq)) = some (List.range' 3 128) := by
  decide +kernel

/-- The window of `asked` ends behind the question, which waits. -/
theorem asked_hides :
    ∃ loaded page,
      (∀ fuel, 0 < fuel →
        initialWindow (fun before => (asked.history "s" before).toOption) fuel none [] =
          some (loaded, page)) ∧
      ∃ row, asked.Waiting "s" row ∧ ¬Answerable loaded row := by
  obtain ⟨⟨loaded, page⟩, hread, hseqs⟩ := Option.map_eq_some_iff.1 asked_window
  have hlog : asked.sessionLog "s" = asked.events := by
    rw [sessionLog_eq asked_ordered]
    exact List.filter_eq_self.2 (by decide +kernel)
  refine ⟨loaded, page, fun fuel hfuel => initialWindow_mono hread hfuel,
    ⟨2, "s", 0, .question "a" none [askedQuestion]⟩, ?_, fun ha => ?_⟩
  · have hrows : ∀ r ∈ asked.events, r.event = .user "q" "r" ∨
        r.event = .question "a" none [askedQuestion] ∨ r.event = .tool "c" "Read" .null := by
      intro r hr
      rcases List.mem_append.1 hr with hr | hr
      · simp only [List.mem_cons, List.not_mem_nil, or_false] at hr
        rcases hr with rfl | rfl <;> simp
      · obtain ⟨n, -, rfl⟩ := List.mem_map.1 hr
        simp [callRow]
    refine ⟨by rw [hlog]; simp [asked], by decide +kernel, rfl, fun r hr => ?_, fun r hr _ => ?_⟩
    · rw [hlog] at hr
      rcases hrows r hr with h | h | h <;> rw [h] <;> exact id
    · rw [hlog] at hr
      rcases hrows r hr with h | h | h <;> rw [h] <;> rfl
  · obtain ⟨e, he, hseq, -⟩ := ha.loaded
    have hmem : e.seq ∈ List.range' 3 128 := hseqs ▸ List.mem_map_of_mem he
    rw [hseq] at hmem
    exact absurd hmem (by decide)

end Store

end LatteWork
