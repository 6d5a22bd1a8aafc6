import LatteWork.Store.Operations

/-!
# What each operation does

One inversion lemma for each operation of the database: from its success, the guards that passed
and the database it returned. The other proofs read the operations only through these.
-/

namespace LatteWork

open Fallible Table

namespace Store

variable {s s' : Store} {id : String} {now : ℕ}

theorem referenceSession_ok {u : Unit} (h : s.referenceSession id = .ok u) :
    ∃ x ∈ s.sessions, x.id = id := by
  simp only [referenceSession, bailIf_eq_ok, Option.isNone_iff_eq_none] at h
  obtain ⟨x, hx⟩ := Option.ne_none_iff_exists'.1 h
  exact ⟨x, List.mem_of_find?_eq_some hx, by simpa using List.find?_some hx⟩

theorem referenceSession_of_mem (h : ∃ x ∈ s.sessions, x.id = id) :
    s.referenceSession id = .ok () := by
  obtain ⟨x, hx, hid⟩ := h
  rw [referenceSession, bailIf_eq_ok, Option.isNone_iff_eq_none, List.find?_eq_none]
  exact fun hn => absurd hid (by simpa using hn x hx)

theorem createSession_cases {fresh projectId agent : String}
    (h : s.createSession fresh projectId agent now = .ok s') :
    s.sessions.any (·.id = fresh) = false ∧ s' = { s with
      sessions := s.sessions ++ [{ id := fresh, projectId, title := "新任务", agent
                                   status := .ready, createdAt := now }] } := by
  simp only [createSession, bind_eq_ok, bailIf_eq_ok, Except.ok.injEq] at h
  obtain ⟨_, _, _, hfresh, rfl⟩ := h
  exact ⟨by simpa using hfresh, rfl⟩

theorem archiveSession_cases {archived : Bool} (h : s.archiveSession id archived = .ok s') :
    ∃ x, s.session id = .ok x ∧ ¬(archived ∧ x.status.active) ∧
      s' = s.save { x with archived, pinnedAt := if archived then none else x.pinnedAt } := by
  simp only [archiveSession, bind_eq_ok, bailIf_eq_ok, Except.ok.injEq] at h
  obtain ⟨x, hx, _, hg, rfl⟩ := h
  exact ⟨x, hx, hg, rfl⟩

theorem state_cases {status : Status} {message : Option String}
    (h : s.state id status message now = .ok s') :
    ∃ x, s.session id = .ok x ∧
      s' = (s.save { x with
        unread := x.unread || (x.status.active && terminal status)
        status }).insertEvent id (.state status message) now := by
  simp only [state, bind_eq_ok, Except.ok.injEq] at h
  obtain ⟨x, hx, rfl⟩ := h
  exact ⟨x, hx, rfl⟩

theorem syncNativeTitle_cases {title : String} {custom : Bool}
    (h : s.syncNativeTitle id title custom = .ok s') :
    s' = s ∨ ∃ x, s.session id = .ok x ∧
      s' = s.save { x with title, customTitle := x.customTitle || custom } := by
  simp only [syncNativeTitle, bind_eq_ok] at h
  obtain ⟨x, hx, h⟩ := h
  split at h
  · exact .inl (Except.ok.inj h).symm
  split at h
  · exact .inl (Except.ok.inj h).symm
  split at h
  · exact .inr ⟨x, hx, (Except.ok.inj h).symm⟩
  · exact .inl (Except.ok.inj h).symm

theorem saveNativeSession_cases {native : String} (h : s.saveNativeSession id native = .ok s') :
    ∃ x, s.session id = .ok x ∧ s' = s.save { x with nativeId := some native } := by
  simp only [saveNativeSession, bind_eq_ok, Except.ok.injEq] at h
  obtain ⟨x, hx, rfl⟩ := h
  exact ⟨x, hx, rfl⟩

theorem saveBaseline_cases {snapshot : Snapshot} (h : s.saveBaseline id snapshot = .ok s') :
    ∃ rows, s' = { s with taskBaselines := rows } := by
  simp only [saveBaseline, bind_eq_ok, Except.ok.injEq] at h
  obtain ⟨_, _, rfl⟩ := h
  exact ⟨_, rfl⟩

/-- An event is appended under its session, a child's update with the child's row id in it. -/
theorem event_cases {e : EventKind} (h : s.event id e now = .ok s') :
    (∃ x ∈ s.sessions, x.id = id) ∧ ∃ rows e', s' = { s with subagents := rows }.insertEvent id e' now ∧
      (e' = e ∨ ∃ u v, e = .subagent u ∧ e' = .subagent v) := by
  unfold event at h
  split at h
  · simp only [bind_eq_ok, Except.ok.injEq] at h
    obtain ⟨_, _, _, href, rfl⟩ := h
    exact ⟨referenceSession_ok href, s.subagents, _, rfl, .inl rfl⟩
  · simp only [bind_eq_ok, Except.ok.injEq] at h
    obtain ⟨_, href, rfl⟩ := h
    exact ⟨referenceSession_ok href, _, _, rfl, .inr ⟨_, _, rfl, rfl⟩⟩
  · simp only [bind_eq_ok, Except.ok.injEq] at h
    obtain ⟨_, href, rfl⟩ := h
    exact ⟨referenceSession_ok href, s.subagents, _, rfl, .inl rfl⟩

theorem beginTurn_cases {r : Submission} {new : Bool} (h : s.beginTurn id r now = .ok (s', new)) :
    (new = false ∧ s' = s ∧ s.alreadyAccepted id r = .ok true) ∨
    (new = true ∧ s.alreadyAccepted id r = .ok false ∧
      ∃ x, s.session id = .ok x ∧ x.status.active = false ∧ x.archived = false ∧
        s' = { ((({ s with requests := s.requests ++ [admitted id r] }.save (started x r)).insertEvent
            id (.user r.text r.requestId) now).insertEvent id (.state .running none) now) with
          messageQueue := updateWhere (dispatchedBy id r.requestId)
            (fun row => { row with status := .dispatched }) s.messageQueue }) := by
  simp only [beginTurn, bind_eq_ok] at h
  obtain ⟨accepted, ha, h⟩ := h
  cases accepted with
  | true =>
    simp only [if_true, Except.ok.injEq, Prod.mk.injEq] at h
    exact .inl ⟨h.2.symm, h.1.symm, ha⟩
  | false =>
    simp only [Bool.false_eq_true, if_false, bind_eq_ok, bailIf_eq_ok, Except.ok.injEq,
      Prod.mk.injEq] at h
    obtain ⟨x, hx, _, hactive, _, harchived, rfl, rfl⟩ := h
    exact .inr ⟨rfl, ha, x, hx, by simpa using hactive, by simpa using harchived, rfl⟩

theorem queued_cases {entries : List (QueuedMessage × Option String)}
    (h : s.queued id = .ok entries) :
    (∃ x, s.session id = .ok x) ∧
      entries = ((s.pendingRows id).take 16).map fun row => (row.data, row.fingerprint) := by
  simp only [queued, bind_eq_ok, Except.ok.injEq] at h
  obtain ⟨x, hx, rfl⟩ := h
  exact ⟨⟨x, hx⟩, rfl⟩

theorem enqueue_cases {r : Submission} (h : s.enqueue id r now = .ok s') :
    (∃ x, s.session id = .ok x ∧ x.archived = false) ∧
      (∀ row ∈ (s.pendingRows id).take 16, row.fingerprint = r.fingerprint) ∧
      (s.messageQueue.filter (QueueRow.held id)).length < 16 ∧
      s.heldBytes id none + (r.queued now).toJson.size ≤ 512 * 1024 ∧
      (∀ row ∈ s.messageQueue, row.requestId ≠ r.requestId) ∧
      ∃ states, s' = { s with
        messageQueue := s.messageQueue ++
          [{ position := s.lastPosition + 1, requestId := r.requestId, sessionId := id
             admission := r.queued now, data := r.queued now, fingerprint := r.fingerprint
             sortOrder := s.nextSortOrder id }]
        lastPosition := s.lastPosition + 1
        messageQueueState := states } := by
  simp only [enqueue, bind_eq_ok, bailIf_eq_ok, Except.ok.injEq] at h
  obtain ⟨_, _, x, hx, _, harch, entries, hq, _, hfp, _, hcount, _, hsize, _, hnew, rfl⟩ := h
  obtain ⟨_, rfl⟩ := queued_cases hq
  refine ⟨⟨x, hx, by simpa using harch⟩, ?_, by omega, by omega, ?_, _, rfl⟩
  · intro row hrow
    by_contra hne
    exact hfp ⟨_, List.mem_map.2 ⟨row, hrow, rfl⟩, hne⟩
  · simpa using hnew

theorem nextRevision_eq_some {n m : ℕ} : nextRevision n = some m ↔ n + 1 < 2 ^ 32 ∧ m = n + 1 := by
  unfold nextRevision
  split <;> simp_all [eq_comm]

/-- An edit names a message that is pending, at its present revision, and either gives it a new
text and the next revision or cancels it. -/
theorem editQueued_cases {requestId : String} {revision : ℕ} {text : Option String}
    (h : s.editQueued id requestId revision text = .ok s') :
    ∃ row ∈ s.messageQueue, row.pendingIn id ∧ row.data.requestId = requestId ∧
      row.data.revision = revision ∧
      ((∃ t, text = some t ∧
          s' = { s with
            messageQueue := updateWhere (QueueRow.isPending id requestId)
              (fun q => { q with data := { row.data with text := t, revision := revision + 1 } })
              s.messageQueue } ∧
          s.heldBytes id (some requestId) +
            { row.data with text := t, revision := revision + 1 }.toJson.size ≤ 512 * 1024) ∨
        (text = none ∧
          s' = { s with
            messageQueue := updateWhere (QueueRow.isPending id requestId)
              (fun q => { q with status := .cancelled }) s.messageQueue })) := by
  simp only [editQueued, bind_eq_ok, bailIf_eq_ok, orError_eq_ok] at h
  obtain ⟨entries, hq, ⟨entry, fp⟩, hfind, _, hrev, h⟩ := h
  obtain ⟨_, rfl⟩ := queued_cases hq
  obtain ⟨row, hrow, heq⟩ := List.mem_map.1 (List.mem_of_find?_eq_some hfind)
  obtain ⟨rfl, rfl⟩ := Prod.mk.inj heq
  have hid : row.data.requestId = requestId := by simpa using List.find?_some hfind
  have hmem := List.mem_filter.1 ((List.mem_insertionSort _).1 (List.mem_of_mem_take hrow))
  rw [not_not] at hrev
  refine ⟨row, hmem.1, hmem.2, hid, hrev, ?_⟩
  cases text with
  | none =>
    simp only [Except.ok.injEq] at h
    exact .inr ⟨rfl, h.symm⟩
  | some t =>
    simp only [bind_eq_ok, bailIf_eq_ok, orError_eq_ok, nextRevision_eq_some, Except.ok.injEq] at h
    obtain ⟨_, _, next, ⟨_, rfl⟩, _, hsize, rfl⟩ := h
    subst hrev
    exact .inl ⟨t, rfl, rfl, Nat.le_of_not_lt hsize⟩

theorem reorderQueue_cases {expected order : List String}
    (h : s.reorderQueue id expected order = .ok s') :
    s' = s ∨ s' = { s with messageQueue := rank id order s.messageQueue } := by
  simp only [reorderQueue, bind_eq_ok, bailIf_eq_ok] at h
  obtain ⟨_, _, _, _, entries, _, h⟩ := h
  split at h
  · exact .inl (Except.ok.inj h).symm
  · simp only [bind_eq_ok, bailIf_eq_ok, Except.ok.injEq] at h
    obtain ⟨_, _, rfl⟩ := h
    exact .inr rfl

theorem queueRow_cases {requestId : String} {row : QueueRow}
    (h : s.queueRow id requestId = .ok row) :
    row ∈ s.messageQueue ∧ row.sessionId = id ∧ row.requestId = requestId := by
  simp only [queueRow, orError_eq_ok] at h
  refine ⟨List.mem_of_find?_eq_some h, ?_⟩
  simpa [QueueRow.is] using List.find?_some h

theorem takeQueued_cases {requestId : String} {revision : ℕ} {entry : QueuedMessage}
    (h : s.takeQueued id requestId revision = .ok (s', entry)) :
    ∃ row ∈ s.messageQueue, row.sessionId = id ∧ row.requestId = requestId ∧
      (row.status = .pending ∨ row.status = .taken) ∧ row.data.revision = revision ∧
      entry = row.data ∧ s' = { s with
        messageQueue := updateWhere (QueueRow.is id requestId)
          (fun q => { q with status := .taken }) s.messageQueue } := by
  simp only [takeQueued, bind_eq_ok, bailIf_eq_ok, Except.ok.injEq, Prod.mk.injEq] at h
  obtain ⟨_, _, row, hrow, _, hguard, rfl, rfl⟩ := h
  obtain ⟨hmem, hid, hreq⟩ := queueRow_cases hrow
  rw [not_or, not_and_or, not_not, not_not, not_not] at hguard
  exact ⟨row, hmem, hid, hreq, hguard.1, hguard.2, rfl, rfl⟩

theorem clearQueue_cases (h : s.clearQueue id = .ok s') :
    ∃ states, s' = { s with
      messageQueue := updateWhere (QueueRow.pendingIn id)
        (fun q => { q with status := .cancelled }) s.messageQueue
      messageQueueState := states } := by
  simp only [clearQueue, bind_eq_ok, Except.ok.injEq] at h
  obtain ⟨_, _, rfl⟩ := h
  exact ⟨_, rfl⟩

theorem pauseQueue_cases {reason : Option String} (h : s.pauseQueue id reason = .ok s') :
    (∃ x ∈ s.sessions, x.id = id) ∧
      s' = s.setQueueState { sessionId := id, paused := reason.isSome, reason } := by
  simp only [pauseQueue, bind_eq_ok, Except.ok.injEq] at h
  obtain ⟨_, href, rfl⟩ := h
  exact ⟨referenceSession_ok href, rfl⟩

theorem markForwarded_cases {requestId : String} {revision : ℕ}
    (h : s.markForwarded id requestId revision now = .ok s') :
    ∃ row ∈ s.messageQueue, row.sessionId = id ∧ row.requestId = requestId ∧
      row.status = .pending ∧ row.data.revision = revision ∧
      s' = { ({ s with
          messageQueue := updateWhere (QueueRow.is id requestId)
            (fun q => { q with status := .forwarded }) s.messageQueue }.insertEvent id
          (.queuedMessageSent row.data.text row.data.requestId) now) with
        turnChanges := updateWhere (TurnRow.runningIn id)
          (fun turn => { turn with baseline := some (overlapUnavailable now) }) s.turnChanges } := by
  simp only [markForwarded, bind_eq_ok, bailIf_eq_ok, Except.ok.injEq] at h
  obtain ⟨row, hrow, _, hguard, rfl⟩ := h
  obtain ⟨hmem, hid, hreq⟩ := queueRow_cases hrow
  rw [not_or, not_not, not_not] at hguard
  exact ⟨row, hmem, hid, hreq, hguard.1, hguard.2, rfl⟩

/-- A rejection finds no hand-off to take back, or returns the one there is at the next
revision. -/
theorem rejectForwarded_cases {requestId reason : String}
    (h : s.rejectForwarded id requestId reason now = .ok s') :
    (s' = s ∧ ∀ row ∈ s.messageQueue, row.isForwarded id requestId = false) ∨
    ∃ row ∈ s.messageQueue, row.isForwarded id requestId ∧ row.data.revision + 1 < 2 ^ 32 ∧
      ∃ states reason, s' = { s with
        messageQueue := updateWhere (QueueRow.isForwarded id requestId)
          (fun q => { q with
            status := .pending
            data := { row.data with revision := row.data.revision + 1 } }) s.messageQueue
        messageQueueState := states }.insertEvent id (.notice reason) now := by
  unfold rejectForwarded at h
  split at h
  · rename_i hnone
    refine .inl ⟨(Except.ok.inj h).symm, fun row hrow => ?_⟩
    simpa using List.find?_eq_none.1 hnone row hrow
  · rename_i row hsome
    simp only [bind_eq_ok, orError_eq_ok, nextRevision_eq_some, Except.ok.injEq] at h
    obtain ⟨next, ⟨hnext, rfl⟩, rfl⟩ := h
    exact .inr ⟨row, List.mem_of_find?_eq_some hsome, List.find?_some hsome, hnext, _, _, rfl⟩

theorem uncertainForwarded_cases (h : s.uncertainForwarded id now = .ok s') :
    (s' = s ∧ ∀ row ∈ s.messageQueue, row.forwardedIn id = false) ∨
    ∃ rows reason, s' = { s with
      messageQueue := updateWhere (QueueRow.forwardedIn id)
        (fun q => { q with status := .uncertain }) s.messageQueue
      subagents := rows }.insertEvent id (.notice reason) now := by
  simp only [uncertainForwarded] at h
  split at h
  · obtain ⟨_, rows, e, rfl, rfl | ⟨_, _, hu, _⟩⟩ := event_cases h
    · exact .inr ⟨rows, _, rfl⟩
    · cases hu
  · rename_i hcount
    have hnone : ∀ row ∈ s.messageQueue, row.forwardedIn id = false := by
      simpa [List.length_eq_zero_iff, List.filter_eq_nil_iff] using hcount
    refine .inl ⟨?_, hnone⟩
    rw [← Except.ok.inj h, updateWhere_of_none hnone]

theorem saveTurnBaseline_cases {requestId : String} {baseline : Snapshot}
    (h : s.saveTurnBaseline id requestId baseline = .ok s') :
    s' = s ∨ s' = { s with
      turnChanges := s.turnChanges ++
        [{ sessionId := id, requestId, baseline := some baseline, data := none }] } := by
  simp only [saveTurnBaseline, bind_eq_ok] at h
  obtain ⟨_, _, h⟩ := h
  split at h
  · exact .inl (Except.ok.inj h).symm
  · simp only [bind_eq_ok, Except.ok.injEq] at h
    obtain ⟨_, _, _, _, rfl⟩ := h
    exact .inr rfl

theorem finishTurn_cases {turn : FrozenTurn} (h : s.finishTurn id turn now = .ok s') :
    s' = s ∨ s' = { s with
      turnChanges := updateWhere (TurnRow.running id turn.changes.requestId)
        (fun row => { row with baseline := none, data := some turn }) s.turnChanges }.insertEvent id
      (.turnChanges turn.changes) now := by
  simp only [finishTurn, bind_eq_ok] at h
  obtain ⟨_, _, h⟩ := h
  split at h
  · simp only [bind_eq_ok, Except.ok.injEq] at h
    obtain ⟨_, _, rfl⟩ := h
    exact .inr rfl
  · exact .inl (Except.ok.inj h).symm

theorem updateTurn_cases {turn : FrozenTurn} (h : s.updateTurn id turn now = .ok s') :
    s' = { s with
      turnChanges := updateWhere (TurnRow.finished id turn.changes.requestId)
        (fun row => { row with data := some turn }) s.turnChanges }.insertEvent id
      (.turnChanges turn.changes) now := by
  simp only [updateTurn, bind_eq_ok, bailIf_eq_ok, Except.ok.injEq] at h
  obtain ⟨_, _, _, _, _, _, rfl⟩ := h
  rfl

end Store

end LatteWork
