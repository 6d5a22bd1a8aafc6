import LatteWork.Proofs.Quiet

/-!
# How a queued message moves

The moves one operation makes with the rows of the queue (`step_moves`), and what follows for the
ledger: rows keep their place and their name, and a message that is over stays as it is.
-/

namespace LatteWork

open Fallible Table

/-- What one operation may do with a queued message. Only a rejection brings one back, and only a
reorder moves one among the others. -/
inductive Moves (op : StoreOp) : QueueRow → QueueRow → Prop where
  | stay (a : QueueRow) : Moves op a a
  | edited (a : QueueRow) (text : String) (h : a.status = .pending) :
    Moves op a { a with data := { a.data with text, revision := a.data.revision + 1 } }
  | reordered (a : QueueRow) (rank : ℕ) (hr : op.reorders = true) (h : a.status = .pending) :
    Moves op a { a with sortOrder := rank }
  | forwarded (a : QueueRow) (h : a.status = .pending) :
    Moves op a { a with status := .forwarded }
  | taken (a : QueueRow) (h : a.status = .pending) : Moves op a { a with status := .taken }
  | cancelled (a : QueueRow) (h : a.status = .pending) :
    Moves op a { a with status := .cancelled }
  | dispatched (a : QueueRow) (h : a.status = .pending ∨ a.status = .forwarded) :
    Moves op a { a with status := .dispatched }
  | rejected (a : QueueRow) (hr : op.returns = true) (h : a.status = .forwarded) :
    Moves op a { a with
      status := .pending
      data := { a.data with revision := a.data.revision + 1 } }
  | uncertain (a : QueueRow) (h : a.status = .forwarded) :
    Moves op a { a with status := .uncertain }

namespace Moves

variable {op : StoreOp} {a b : QueueRow}

theorem requestId (h : Moves op a b) : b.requestId = a.requestId := by cases h <;> rfl

theorem sessionId (h : Moves op a b) : b.sessionId = a.sessionId := by cases h <;> rfl

theorem position (h : Moves op a b) : b.position = a.position := by cases h <;> rfl

theorem admission (h : Moves op a b) : b.admission = a.admission := by cases h <;> rfl

theorem fingerprint (h : Moves op a b) : b.fingerprint = a.fingerprint := by cases h <;> rfl

theorem dataRequest (h : Moves op a b) : b.data.requestId = a.data.requestId := by
  cases h <;> rfl

theorem of_final (h : Moves op a b) (ha : a.status.final) : b = a := by
  cases h with
  | stay => rfl
  | dispatched h => rcases h with h | h <;> simp [h, QueueStatus.final] at ha
  | _ => simp_all [QueueStatus.final]

theorem revision_le (h : Moves op a b) : a.data.revision ≤ b.data.revision := by
  cases h <;> simp

/-- A message that is not pending waits at a higher revision when it is pending again. -/
theorem revision_lt (h : Moves op a b) (ha : a.status ≠ .pending) (hb : b.status = .pending) :
    a.data.revision < b.data.revision := by
  cases h <;> simp_all

/-- A message is pending after an operation only if it was before, or came back. -/
theorem pending_of (h : Moves op a b) (hb : b.status = .pending) :
    a.status = .pending ∨ op.returns = true ∧ a.status = .forwarded := by
  cases h <;> simp_all

theorem sortOrder (h : Moves op a b) (hr : op.reorders = false) : b.sortOrder = a.sortOrder := by
  cases h <;> simp_all

theorem held_of (h : Moves op a b) {id : String} (hb : b.held id) : a.held id := by
  simp only [QueueRow.held, Bool.and_eq_true, Bool.or_eq_true, decide_eq_true_eq] at hb ⊢
  cases h <;> simp_all

end Moves

/-- The ledger of queued messages: one row for a request id, in the order of admission. -/
structure Ledger (rows : List QueueRow) (lastPosition : ℕ) : Prop where
  keyed : Keyed QueueRow.requestId rows
  named : ∀ row ∈ rows, row.data.requestId = row.requestId
  positions : rows.Pairwise (·.position < ·.position)
  bounded : ∀ row ∈ rows, row.position ≤ lastPosition

namespace Ledger

variable {op : StoreOp} {rows rows' : List QueueRow} {n : ℕ}

theorem moves (h : Ledger rows n) (hm : List.Forall₂ (Moves op) rows rows') : Ledger rows' n := by
  refine ⟨?_, fun b hb => ?_, ?_, fun b hb => ?_⟩
  · unfold Keyed
    rw [forall₂_map_eq QueueRow.requestId (fun _ _ => Moves.requestId) hm]
    exact h.keyed
  · obtain ⟨a, ha, hab⟩ := forall₂_source hm hb
    rw [hab.dataRequest, hab.requestId, h.named a ha]
  · have := forall₂_map_eq QueueRow.position (fun _ _ => Moves.position) hm
    rw [← List.pairwise_map (f := QueueRow.position) (R := (· < ·)), this, List.pairwise_map]
    exact h.positions
  · obtain ⟨a, ha, hab⟩ := forall₂_source hm hb
    rw [hab.position]
    exact h.bounded a ha

theorem enqueued {row : QueueRow} (h : Ledger rows n) (hpos : row.position = n + 1)
    (hnew : ∀ a ∈ rows, a.requestId ≠ row.requestId) (hname : row.data.requestId = row.requestId) :
    Ledger (rows ++ [row]) (n + 1) := by
  refine ⟨h.keyed.append hnew, fun a ha => ?_, ?_, fun a ha => ?_⟩
  · rcases List.mem_append.1 ha with ha | ha
    · exact h.named a ha
    · rwa [List.mem_singleton.1 ha]
  · refine List.pairwise_append.2 ⟨h.positions, by simp, fun a ha b hb => ?_⟩
    rw [List.mem_singleton.1 hb, hpos]
    exact Nat.lt_succ_of_le (h.bounded a ha)
  · rcases List.mem_append.1 ha with ha | ha
    · exact (h.bounded a ha).trans (Nat.le_succ n)
    · rw [List.mem_singleton.1 ha, hpos]

end Ledger

theorem Ledger.keyed_position {rows : List QueueRow} {n : ℕ} (h : Ledger rows n) :
    Keyed QueueRow.position rows := by
  refine List.pairwise_map.2 (h.positions.imp fun hab => ?_)
  exact Nat.ne_of_lt hab

namespace QueueRow

variable {id : String}

theorem is_iff {requestId : String} {row : QueueRow} :
    row.is id requestId = true ↔ row.sessionId = id ∧ row.requestId = requestId := by
  simp [QueueRow.is]

theorem isPending_iff {requestId : String} {row : QueueRow} :
    row.isPending id requestId = true ↔
      (row.sessionId = id ∧ row.requestId = requestId) ∧ row.status = .pending := by
  simp [QueueRow.isPending, QueueRow.is]

theorem isForwarded_iff {requestId : String} {row : QueueRow} :
    row.isForwarded id requestId = true ↔
      (row.sessionId = id ∧ row.requestId = requestId) ∧ row.status = .forwarded := by
  simp [QueueRow.isForwarded, QueueRow.is]

theorem pendingIn_iff {row : QueueRow} :
    row.pendingIn id = true ↔ row.sessionId = id ∧ row.status = .pending := by
  simp [QueueRow.pendingIn]

theorem forwardedIn_iff {row : QueueRow} :
    row.forwardedIn id = true ↔ row.sessionId = id ∧ row.status = .forwarded := by
  simp [QueueRow.forwardedIn]

end QueueRow

namespace Store

variable {s s' : Store} {id : String} {now : ℕ} {op : StoreOp}

/-- The ledger of a database's queue. -/
def QueueLedger (s : Store) : Prop := Ledger s.messageQueue s.lastPosition

theorem QueueLedger.row_eq (h : s.QueueLedger) {a b : QueueRow} (ha : a ∈ s.messageQueue)
    (hb : b ∈ s.messageQueue) (hab : a.requestId = b.requestId) : a = b :=
  h.keyed.eq ha hb hab

theorem QueueLedger.position_eq (h : s.QueueLedger) {a b : QueueRow} (ha : a ∈ s.messageQueue)
    (hb : b ∈ s.messageQueue) (hab : a.position = b.position) : a = b :=
  h.keyed_position.eq ha hb hab

theorem beginTurn_moves {r : Submission} {new : Bool} (h : s.beginTurn id r now = .ok (s', new)) :
    List.Forall₂ (Moves op) s.messageQueue s'.messageQueue ∧ s'.lastPosition = s.lastPosition := by
  obtain ⟨_, rfl, _⟩ | ⟨_, _, x, _, _, _, rfl⟩ := beginTurn_cases h
  · exact ⟨List.forall₂_same.2 fun a _ => .stay a, rfl⟩
  · refine ⟨forall₂_updateWhere Moves.stay fun a _ ha => .dispatched a ?_, rfl⟩
    simpa using (by simpa [dispatchedBy] using ha : _ ∧ (a.status = .pending ∨ a.status = .forwarded)).2

theorem editQueued_moves {requestId : String} {revision : ℕ} {text : Option String}
    (hl : s.QueueLedger) (h : s.editQueued id requestId revision text = .ok s') :
    List.Forall₂ (Moves op) s.messageQueue s'.messageQueue ∧ s'.lastPosition = s.lastPosition := by
  obtain ⟨row, hrow, hp, hreq, hrev, ⟨t, _, rfl, _⟩ | ⟨_, rfl⟩⟩ := editQueued_cases h
  · refine ⟨forall₂_updateWhere Moves.stay fun a ha hap => ?_, rfl⟩
    obtain ⟨⟨_, hid⟩, hst⟩ := QueueRow.isPending_iff.1 hap
    obtain rfl : a = row := hl.row_eq ha hrow (by rw [hid, ← hreq, hl.named row hrow])
    subst hrev
    exact .edited a t hst
  · exact ⟨forall₂_updateWhere Moves.stay fun a _ hap =>
      .cancelled a (QueueRow.isPending_iff.1 hap).2, rfl⟩

theorem rank_rows (order : List String) (rows : List QueueRow) :
    List.Forall₂ (fun a b => b = a ∨ ∃ n, a.status = .pending ∧ b = { a with sortOrder := n })
      rows (rank id order rows) := by
  refine forall₂_foldl_updateWhere (fun (b : String × ℕ) a c hac hc => ?_) _ _
    (List.forall₂_same.2 fun a _ => .inl rfl)
  have hst := (QueueRow.isPending_iff.1 hc).2
  rcases hac with rfl | ⟨n, ha, rfl⟩
  · exact .inr ⟨b.2, hst, rfl⟩
  · exact .inr ⟨b.2, ha, rfl⟩

theorem rank_moves (hr : op.reorders = true) (order : List String) (rows : List QueueRow) :
    List.Forall₂ (Moves op) rows (rank id order rows) := by
  refine (rank_rows order rows).imp fun a b hab => ?_
  rcases hab with rfl | ⟨n, ha, rfl⟩
  · exact .stay b
  · exact .reordered a n hr ha

theorem consumeForwarded_rows (requests : List String) :
    List.Forall₂ (fun a b => b = a ∨ a.status = .forwarded ∧ b = { a with status := .dispatched })
      s.messageQueue (s.consumeForwarded id requests).messageQueue := by
  refine forall₂_foldl_updateWhere (fun (r : String) a c hac hc => ?_) _ _
    (List.forall₂_same.2 fun a _ => .inl rfl)
  rcases hac with rfl | ⟨ha, rfl⟩
  · exact .inr ⟨(QueueRow.isForwarded_iff.1 hc).2, rfl⟩
  · exact .inr ⟨ha, rfl⟩

theorem consumeForwarded_moves (requests : List String) :
    List.Forall₂ (Moves op) s.messageQueue (s.consumeForwarded id requests).messageQueue := by
  refine (consumeForwarded_rows requests).imp fun a b hab => ?_
  rcases hab with rfl | ⟨ha, rfl⟩
  · exact .stay b
  · exact .dispatched a (.inr ha)

theorem takeQueued_moves {requestId : String} {revision : ℕ} {entry : QueuedMessage}
    (hl : s.QueueLedger) (h : s.takeQueued id requestId revision = .ok (s', entry)) :
    List.Forall₂ (Moves op) s.messageQueue s'.messageQueue ∧ s'.lastPosition = s.lastPosition := by
  obtain ⟨row, hrow, hid, hreq, hst, _, _, rfl⟩ := takeQueued_cases h
  refine ⟨forall₂_updateWhere Moves.stay fun a ha hap => ?_, rfl⟩
  obtain rfl : a = row := hl.row_eq ha hrow (by rw [hreq, (QueueRow.is_iff.1 hap).2])
  rcases hst with hst | hst
  · exact .taken a hst
  · simpa [← hst] using Moves.stay a

theorem clearQueue_moves (h : s.clearQueue id = .ok s') :
    List.Forall₂ (Moves op) s.messageQueue s'.messageQueue ∧ s'.lastPosition = s.lastPosition := by
  obtain ⟨_, rfl⟩ := clearQueue_cases h
  exact ⟨forall₂_updateWhere Moves.stay fun a _ hap =>
    .cancelled a (QueueRow.pendingIn_iff.1 hap).2, rfl⟩

theorem markForwarded_moves {requestId : String} {revision : ℕ} (hl : s.QueueLedger)
    (h : s.markForwarded id requestId revision now = .ok s') :
    List.Forall₂ (Moves op) s.messageQueue s'.messageQueue ∧ s'.lastPosition = s.lastPosition := by
  obtain ⟨row, hrow, _, hreq, hst, _, rfl⟩ := markForwarded_cases h
  refine ⟨forall₂_updateWhere Moves.stay fun a ha hap => ?_, rfl⟩
  obtain rfl : a = row := hl.row_eq ha hrow (by rw [hreq, (QueueRow.is_iff.1 hap).2])
  exact .forwarded a hst

theorem rejectForwarded_moves {requestId reason : String} (hr : op.returns = true)
    (hl : s.QueueLedger) (h : s.rejectForwarded id requestId reason now = .ok s') :
    List.Forall₂ (Moves op) s.messageQueue s'.messageQueue ∧ s'.lastPosition = s.lastPosition := by
  obtain ⟨rfl, _⟩ | ⟨row, hrow, hf, _, _, _, rfl⟩ := rejectForwarded_cases h
  · exact ⟨List.forall₂_same.2 fun a _ => .stay a, rfl⟩
  · refine ⟨forall₂_updateWhere Moves.stay fun a ha hap => ?_, rfl⟩
    have hreq := (QueueRow.isForwarded_iff.1 hf).1.2
    obtain ⟨⟨_, hreq'⟩, hst⟩ := QueueRow.isForwarded_iff.1 hap
    obtain rfl : a = row := hl.row_eq ha hrow (by rw [hreq, hreq'])
    exact .rejected a hr hst

theorem uncertainForwarded_moves (h : s.uncertainForwarded id now = .ok s') :
    List.Forall₂ (Moves op) s.messageQueue s'.messageQueue ∧ s'.lastPosition = s.lastPosition := by
  obtain ⟨hq, _, hp, _⟩ := uncertainForwarded_queue h
  rw [hq]
  exact ⟨forall₂_updateWhere Moves.stay fun a _ hap =>
    .uncertain a (QueueRow.forwardedIn_iff.1 hap).2, hp⟩

theorem giveUp_moves (rows : List QueueRow) : List.Forall₂ (Moves op) rows (giveUp rows) :=
  forall₂_updateWhere Moves.stay fun a _ hap => .uncertain a (of_decide_eq_true hap)

theorem Quiet.moves (h : Quiet s s') :
    List.Forall₂ (Moves op) s.messageQueue s'.messageQueue ∧ s'.lastPosition = s.lastPosition := by
  rw [h.messageQueue]
  exact ⟨List.forall₂_same.2 fun a _ => .stay a, h.lastPosition⟩

/-- The row a message is queued as. -/
def queuedRow (s : Store) (id : String) (r : Submission) (now : ℕ) : QueueRow where
  position := s.lastPosition + 1
  requestId := r.requestId
  sessionId := id
  admission := r.queued now
  data := r.queued now
  fingerprint := r.fingerprint
  sortOrder := s.nextSortOrder id

/-- Every accepted operation but `enqueue` moves the rows the queue has, and `enqueue` adds one
behind them. -/
theorem apply_moves {o : StoreOp × ℕ} (hl : s.QueueLedger) (h : s.apply o = .ok s') :
    (List.Forall₂ (Moves o.1) s.messageQueue s'.messageQueue ∧
      s'.lastPosition = s.lastPosition) ∨
    ∃ id r, o.1 = .enqueue id r ∧ (∀ a ∈ s.messageQueue, a.requestId ≠ r.requestId) ∧
      s'.messageQueue = s.messageQueue ++ [s.queuedRow id r o.2] ∧
      s'.lastPosition = s.lastPosition + 1 := by
  by_cases hq : o.1.quiet = true
  · exact .inl (apply_quiet hq h).moves
  obtain ⟨op, now⟩ := o
  cases op with
  | createSession fresh projectId agent =>
    obtain ⟨_, rfl⟩ := createSession_cases h
    exact .inl ⟨List.forall₂_same.2 fun a _ => .stay a, rfl⟩
  | archive id archived =>
    obtain ⟨x, _, _, rfl⟩ := archiveSession_cases h
    exact .inl ⟨List.forall₂_same.2 fun a _ => .stay a, rfl⟩
  | begin id r =>
    simp only [apply, map_eq_ok] at h
    obtain ⟨⟨t, new⟩, h, rfl⟩ := h
    exact .inl (beginTurn_moves h)
  | enqueue id r =>
    obtain ⟨_, _, _, _, hnew, _, rfl⟩ := enqueue_cases h
    exact .inr ⟨id, r, rfl, hnew, rfl, rfl⟩
  | edit id requestId revision text => exact .inl (editQueued_moves hl h)
  | reorder id expected order =>
    obtain rfl | rfl := reorderQueue_cases h
    · exact .inl ⟨List.forall₂_same.2 fun a _ => .stay a, rfl⟩
    · exact .inl ⟨rank_moves rfl order _, rfl⟩
  | take id requestId revision =>
    simp only [apply, map_eq_ok] at h
    obtain ⟨⟨t, entry⟩, h, rfl⟩ := h
    exact .inl (takeQueued_moves hl h)
  | clear id => exact .inl (clearQueue_moves h)
  | markForwarded id requestId revision => exact .inl (markForwarded_moves hl h)
  | rejectForwarded id requestId reason => exact .inl (rejectForwarded_moves rfl hl h)
  | consumeForwarded id requests =>
    obtain rfl := Except.ok.inj h
    exact .inl ⟨consumeForwarded_moves requests, rfl⟩
  | uncertainForwarded id => exact .inl (uncertainForwarded_moves h)
  | reopen =>
    have hr := reopen_cases h
    rw [hr.messageQueue]
    exact .inl ⟨giveUp_moves _, hr.lastPosition⟩
  | _ => exact absurd rfl hq

/-- The step lemma of the ledger. -/
theorem apply_ledger {o : StoreOp × ℕ} (hl : s.QueueLedger) (h : s.apply o = .ok s') :
    s'.QueueLedger := by
  obtain ⟨hm, hp⟩ | ⟨id, r, _, hnew, hq, hp⟩ := apply_moves hl h
  · rw [QueueLedger, hp]
    exact hl.moves hm
  · rw [QueueLedger, hq, hp]
    exact hl.enqueued rfl hnew rfl

end Store

end LatteWork
