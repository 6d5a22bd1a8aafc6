import LatteWork.Proofs.QueueMoves

/-!
# Exactly-once hand-off

A revision of a queued message is handed to the agent either inside a running turn, which logs
the hand-off, or as the prompt of a turn of its own. A revision that was handed over is spent: its
row is at a later revision, or at this one and not pending. A hand-off needs a row that is pending
at the revision, so no revision is handed over twice.
-/

namespace LatteWork

open Fallible Table

/-- The moves of a message's status and revision. -/
def Delivers (a b : QueueRow) : Prop :=
  (b.status = a.status ∧ a.data.revision ≤ b.data.revision) ∨
  (a.status = .pending ∧ b.data.revision = a.data.revision ∧
    (b.status = .forwarded ∨ b.status = .taken ∨ b.status = .cancelled ∨ b.status = .dispatched)) ∨
  (a.status = .forwarded ∧ b.status = .pending ∧ a.data.revision < b.data.revision) ∨
  (a.status = .forwarded ∧ b.data.revision = a.data.revision ∧
    (b.status = .dispatched ∨ b.status = .uncertain))

theorem Moves.delivers {op : StoreOp} {a b : QueueRow} (h : Moves op a b) : Delivers a b := by
  cases h with
  | dispatched h => rcases h with h | h <;> simp [Delivers, h]
  | _ => simp_all [Delivers]

/-- The revision of a request was handed over. -/
def Spent (rows : List QueueRow) (handed : String × ℕ) : Prop :=
  ∃ row ∈ rows, row.requestId = handed.1 ∧
    (handed.2 < row.data.revision ∨ handed.2 = row.data.revision ∧ row.status ≠ .pending)

theorem Spent.moves {op : StoreOp} {rows rows' : List QueueRow} {handed : String × ℕ}
    (h : Spent rows handed) (hm : List.Forall₂ (Moves op) rows rows') : Spent rows' handed := by
  obtain ⟨a, ha, hreq, hspent⟩ := h
  obtain ⟨b, hb, hab⟩ := forall₂_target hm ha
  refine ⟨b, hb, hab.requestId.trans hreq, ?_⟩
  have hle := hab.revision_le
  rcases hspent with hlt | ⟨heq, hst⟩
  · exact .inl (by omega)
  · by_cases hp : b.status = .pending
    · exact .inl (heq ▸ hab.revision_lt hst hp)
    · rcases hle.lt_or_eq with hlt | he
      · exact .inl (heq ▸ hlt)
      · exact .inr ⟨heq.trans he, hp⟩

theorem Spent.append {rows more : List QueueRow} {handed : String × ℕ} (h : Spent rows handed) :
    Spent (rows ++ more) handed := by
  obtain ⟨a, ha, hs⟩ := h
  exact ⟨a, List.mem_append_left _ ha, hs⟩

namespace Store

variable {s s' : Store} {id : String} {now : ℕ}

/-- The hand-off inside a turn that an attempted operation makes: request and revision. -/
def marked (s : Store) (o : StoreOp × ℕ) : Option (String × ℕ) :=
  match o with
  | (.markForwarded id requestId revision, now) =>
    match s.markForwarded id requestId revision now with
    | .ok _ => some (requestId, revision)
    | .error _ => none
  | _ => none

/-- The queued message whose turn an attempted operation starts: request and revision. -/
def prompted (s : Store) (o : StoreOp × ℕ) : Option (String × ℕ) :=
  match o with
  | (.begin id r, now) =>
    match s.beginTurn id r now with
    | .ok (_, true) =>
      (s.messageQueue.find? (QueueRow.isPending id r.requestId)).map fun row =>
        (r.requestId, row.data.revision)
    | _ => none
  | _ => none

/-- What an attempted operation hands to the agent. -/
def handed (s : Store) (o : StoreOp × ℕ) : Option (String × ℕ) := s.marked o <|> s.prompted o

theorem marked_eq_some {o : StoreOp × ℕ} {v : String × ℕ} (h : s.marked o = some v) :
    ∃ id s', o.1 = .markForwarded id v.1 v.2 ∧ s.markForwarded id v.1 v.2 o.2 = .ok s' := by
  unfold marked at h
  split at h
  · split at h
    · rename_i t ht
      obtain rfl := Option.some.inj h
      exact ⟨_, t, rfl, ht⟩
    · exact absurd h (by simp)
  · exact absurd h (by simp)

theorem prompted_eq_some {o : StoreOp × ℕ} {v : String × ℕ} (h : s.prompted o = some v) :
    ∃ id r s', o.1 = .begin id r ∧ s.beginTurn id r o.2 = .ok (s', true) ∧ r.requestId = v.1 ∧
      ∃ row ∈ s.messageQueue, row.isPending id v.1 = true ∧ row.data.revision = v.2 := by
  unfold prompted at h
  split at h
  · rename_i id r now
    split at h
    · rename_i t ht
      obtain ⟨row, hrow, hv⟩ := Option.map_eq_some_iff.1 h
      subst hv
      exact ⟨id, r, t, rfl, ht, rfl, row, List.mem_of_find?_eq_some hrow, List.find?_some hrow, rfl⟩
    · exact absurd h (by simp)
  · exact absurd h (by simp)

/-- A hand-off finds its message pending at the revision, and leaves it spent. -/
theorem handed_spends {o : StoreOp × ℕ} {v : String × ℕ} (h : s.handed o = some v) :
    (∃ row ∈ s.messageQueue, row.requestId = v.1 ∧ row.data.revision = v.2 ∧ row.status = .pending) ∧
      Spent (s.step o).messageQueue v := by
  rcases (Option.orElse_eq_some _ _ _).1 h with h | ⟨-, h⟩
  · obtain ⟨id, t, ho, ht⟩ := marked_eq_some h
    obtain ⟨op, now⟩ := o
    obtain rfl : op = _ := ho
    obtain ⟨row, hrow, hid, hreq, hst, hrev, ht'⟩ := markForwarded_cases ht
    refine ⟨⟨row, hrow, hreq, hrev, hst⟩, ?_⟩
    rw [step_ok (o := (.markForwarded id v.1 v.2, now)) ht, ht']
    refine ⟨{ row with status := .forwarded }, mem_updateWhere.2 ⟨row, hrow, ?_⟩, hreq,
      .inr ⟨hrev.symm, by simp⟩⟩
    rw [if_pos (QueueRow.is_iff.2 ⟨hid, hreq⟩)]
  · obtain ⟨id, r, t, ho, ht, hr, row, hrow, hp, hrev⟩ := prompted_eq_some h
    obtain ⟨op, now⟩ := o
    obtain rfl : op = _ := ho
    obtain ⟨⟨hid, hreq⟩, hst⟩ := QueueRow.isPending_iff.1 hp
    refine ⟨⟨row, hrow, hreq, hrev, hst⟩, ?_⟩
    have happly : s.apply (.begin id r, now) = .ok t := by
      simp only [apply, map_eq_ok]
      exact ⟨_, ht, rfl⟩
    rw [step_ok happly]
    obtain ⟨hf, _⟩ | ⟨_, _, x, _, _, _, rfl⟩ := beginTurn_cases ht
    · exact absurd hf (by simp)
    refine ⟨{ row with status := .dispatched }, mem_updateWhere.2 ⟨row, hrow, ?_⟩, hreq,
      .inr ⟨hrev.symm, by simp⟩⟩
    rw [if_pos]
    simp [dispatchedBy, hid, hreq, hr, hst]

theorem step_ledger {o : StoreOp × ℕ} (hl : s.QueueLedger) : (s.step o).QueueLedger :=
  Runs.attempt_keeps (fun _ h => apply_ledger hl h) hl

theorem empty_ledger (projects : List Project) : (Store.empty projects).QueueLedger :=
  ⟨List.nodup_nil, by simp [empty], .nil, by simp [empty]⟩

theorem after_ledger (hl : s.QueueLedger) (ops : List (StoreOp × ℕ)) : (s.after ops).QueueLedger :=
  Runs.run_keeps hl (fun _ _ => step_ledger) ops

/-- One attempted operation moves every message there is. -/
theorem step_moves (hl : s.QueueLedger) (o : StoreOp × ℕ) {a : QueueRow}
    (ha : a ∈ s.messageQueue) : ∃ b ∈ (s.step o).messageQueue, Moves o.1 a b := by
  refine Runs.attempt_keeps (P := fun t : Store => ∃ b ∈ t.messageQueue, Moves o.1 a b)
    (fun t ht => ?_) ⟨a, ha, .stay a⟩
  obtain ⟨hm, _⟩ | ⟨id, r, _, _, hq, _⟩ := apply_moves hl ht
  · exact forall₂_target hm ha
  · exact ⟨a, hq ▸ List.mem_append_left _ ha, .stay a⟩

theorem step_spent (hl : s.QueueLedger) (o : StoreOp × ℕ) {v : String × ℕ}
    (h : Spent s.messageQueue v) : Spent (s.step o).messageQueue v := by
  refine Runs.attempt_keeps (P := fun t : Store => Spent t.messageQueue v) (fun t ht => ?_) h
  obtain ⟨hm, _⟩ | ⟨id, r, _, _, hq, _⟩ := apply_moves hl ht
  · exact h.moves hm
  · rw [hq]
    exact h.append

/-- What a run hands over is spent at its end, and handed over once. -/
theorem handed_once (hl : s.QueueLedger) : ∀ ops : List (StoreOp × ℕ),
    (∀ v ∈ Runs.emitted step handed s ops, Spent (s.after ops).messageQueue v) ∧
      (Runs.emitted step handed s ops).Nodup := by
  refine Runs.run_induction (s := s) (P := fun ops t =>
    (∀ v ∈ Runs.emitted step handed s ops, Spent t.messageQueue v) ∧
      (Runs.emitted step handed s ops).Nodup) ⟨by simp, by simp⟩ fun ops o ⟨hspent, hnodup⟩ => ?_
  have hl' : (Runs.run step s ops).QueueLedger := after_ledger hl ops
  rw [Runs.emitted_concat]
  rcases ho : (Runs.run step s ops).handed o with _ | v
  · simp only [Option.toList_none, List.append_nil]
    exact ⟨fun v hv => step_spent hl' o (hspent v hv), hnodup⟩
  · obtain ⟨⟨row, hrow, hreq, hrev, hst⟩, hv⟩ := handed_spends ho
    have hnew : v ∉ Runs.emitted step handed s ops := by
      intro hmem
      obtain ⟨row', hrow', hreq', hspent'⟩ := hspent v hmem
      obtain rfl := hl'.row_eq hrow' hrow (hreq'.trans hreq.symm)
      rcases hspent' with hlt | ⟨_, hne⟩
      · omega
      · exact hne hst
    refine ⟨fun w hw => ?_, ?_⟩
    · rcases List.mem_append.1 hw with hw | hw
      · exact step_spent hl' o (hspent w hw)
      · simp only [Option.toList_some, List.mem_singleton] at hw
        exact hw ▸ hv
    · exact List.nodup_append.2 ⟨hnodup, by simp, fun a ha b hb hab => by
        simp only [Option.toList_some, List.mem_singleton] at hb
        exact hnew (hb ▸ hab ▸ ha)⟩

/-- Only a started turn and a hand-off log anything but an agent's events. -/
theorem apply_logged {o : StoreOp × ℕ} (h : s.apply o = .ok s')
    (hb : ∀ id r, o.1 ≠ .begin id r) (hm : ∀ id q n, o.1 ≠ .markForwarded id q n) :
    Logged s s' := by
  by_cases hq : o.1.quiet = true
  · exact (apply_quiet hq h).logged
  obtain ⟨op, now⟩ := o
  cases op with
  | createSession fresh projectId agent =>
    obtain ⟨_, rfl⟩ := createSession_cases h
    exact .of_eq rfl rfl
  | archive id archived =>
    obtain ⟨x, _, _, rfl⟩ := archiveSession_cases h
    exact .of_eq rfl rfl
  | begin id r => exact absurd rfl (hb id r)
  | enqueue id r =>
    obtain ⟨_, _, _, _, _, _, rfl⟩ := enqueue_cases h
    exact .of_eq rfl rfl
  | edit id requestId revision text =>
    obtain ⟨_, _, _, _, _, ⟨_, _, rfl, _⟩ | ⟨_, rfl⟩⟩ := editQueued_cases h
    · exact .of_eq rfl rfl
    · exact .of_eq rfl rfl
  | reorder id expected order =>
    obtain rfl | rfl := reorderQueue_cases h
    · exact .refl _
    · exact .of_eq rfl rfl
  | take id requestId revision =>
    simp only [apply, map_eq_ok] at h
    obtain ⟨⟨t, entry⟩, h, rfl⟩ := h
    obtain ⟨_, _, _, _, _, _, _, rfl⟩ := takeQueued_cases h
    exact .of_eq rfl rfl
  | clear id =>
    obtain ⟨_, rfl⟩ := clearQueue_cases h
    exact .of_eq rfl rfl
  | markForwarded id requestId revision => exact absurd rfl (hm id requestId revision)
  | rejectForwarded id requestId reason =>
    obtain ⟨rfl, _⟩ | ⟨_, _, _, _, _, _, rfl⟩ := rejectForwarded_cases h
    · exact .refl _
    · exact Grew.insertEvent (.of_eq rfl rfl) (by rfl)
  | consumeForwarded id requests =>
    obtain rfl := Except.ok.inj h
    exact .of_eq rfl rfl
  | uncertainForwarded id => exact (uncertainForwarded_queue h).2.2.2.2
  | reopen => exact (reopen_cases h).logged
  | _ => exact absurd rfl hq

/-- A hand-off inside a turn leaves one hand-off event, and nothing else leaves any. -/
theorem step_sent (hl : s.QueueLedger) (o : StoreOp × ℕ) :
    (s.step o).sentRequests = s.sentRequests ++ ((s.marked o).map Prod.fst).toList := by
  obtain ⟨op, now⟩ := o
  by_cases hb : ∃ id r, op = .begin id r
  · obtain ⟨id, r, rfl⟩ := hb
    refine Runs.attempt_keeps (P := fun t : Store => t.sentRequests = s.sentRequests ++ [])
      (fun t ht => ?_) (by simp)
    simp only [apply, map_eq_ok] at ht
    obtain ⟨⟨t, new⟩, ht, rfl⟩ := ht
    obtain ⟨_, rfl, _⟩ | ⟨_, _, x, _, _, _, rfl⟩ := beginTurn_cases ht
    · simp
    · simp [sentRequests, insertEvent, EventKind.sentRequest]
  by_cases hm : ∃ id q n, op = .markForwarded id q n
  · obtain ⟨id, requestId, revision, rfl⟩ := hm
    rcases ht : s.markForwarded id requestId revision now with e | t
    · rw [step_error (o := (.markForwarded id requestId revision, now)) ht]
      simp [marked, ht]
    · rw [step_ok (o := (.markForwarded id requestId revision, now)) ht]
      obtain ⟨row, hrow, _, hreq, _, _, rfl⟩ := markForwarded_cases ht
      simp [sentRequests, insertEvent, EventKind.sentRequest, marked, ht, hl.named row hrow, hreq]
  have hnone : s.marked (op, now) = none := by
    unfold marked
    split
    · rename_i heq
      exact absurd ⟨_, _, _, (Prod.mk.inj heq).1⟩ hm
    · rfl
  rw [hnone]
  refine Runs.attempt_keeps (P := fun t : Store => t.sentRequests = s.sentRequests ++ [])
    (fun t ht => ?_) (by simp)
  rw [List.append_nil]
  exact (apply_logged ht (fun id r h => hb ⟨id, r, h⟩) fun id q n h => hm ⟨id, q, n, h⟩).sentRequests

/-- The hand-off events of a run are its hand-offs inside turns, in order. -/
theorem sent_marked (hl : s.QueueLedger) (ops : List (StoreOp × ℕ)) :
    (s.after ops).sentRequests =
      s.sentRequests ++ (Runs.emitted step marked s ops).map Prod.fst := by
  refine Runs.run_induction (s := s) (P := fun ops t =>
    t.sentRequests = s.sentRequests ++ (Runs.emitted step marked s ops).map Prod.fst) (by simp)
    (fun ops o ih => ?_) ops
  rw [step_sent (s := Runs.run step s ops) (after_ledger hl ops) o, Runs.emitted_concat, ih]
  rcases (Runs.run step s ops).marked o with _ | v <;> simp

/-- Naming a revision that is not the message's: every operation that names one is refused. -/
theorem stale_refused (hl : s.QueueLedger) {requestId : String} {revision : ℕ}
    (hstale : ∀ row ∈ s.messageQueue, row.sessionId = id → row.requestId = requestId →
      row.data.revision ≠ revision) (text : Option String) :
    ∀ op ∈ [StoreOp.edit id requestId revision text, .take id requestId revision,
      .markForwarded id requestId revision], (∃ e, s.apply (op, now) = .error e) ∧
        s.step (op, now) = s := by
  have hrefuse : ∀ op : StoreOp, (∀ t, s.apply (op, now) ≠ .ok t) →
      (∃ e, s.apply (op, now) = .error e) ∧ s.step (op, now) = s := by
    intro op hop
    rcases h : s.apply (op, now) with e | t
    · exact ⟨⟨e, rfl⟩, step_error h⟩
    · exact absurd h (hop t)
  intro op hop
  simp only [List.mem_cons, List.not_mem_nil, or_false] at hop
  refine hrefuse op fun t ht => ?_
  rcases hop with rfl | rfl | rfl
  · obtain ⟨row, hrow, hp, hreq, hrev, _⟩ := editQueued_cases ht
    exact hstale row hrow (QueueRow.pendingIn_iff.1 hp).1 ((hl.named row hrow) ▸ hreq) hrev
  · simp only [apply, map_eq_ok] at ht
    obtain ⟨⟨t, entry⟩, ht, rfl⟩ := ht
    obtain ⟨row, hrow, hid, hreq, _, hrev, _⟩ := takeQueued_cases ht
    exact hstale row hrow hid hreq hrev
  · obtain ⟨row, hrow, hid, hreq, _, hrev, _⟩ := markForwarded_cases ht
    exact hstale row hrow hid hreq hrev

/-- A message that is over keeps its row through every run. -/
theorem final_stays (hl : s.QueueLedger) (ops : List (StoreOp × ℕ)) {a : QueueRow}
    (ha : a ∈ s.messageQueue) (hf : a.status.final) : a ∈ (s.after ops).messageQueue := by
  refine (Runs.run_keeps (P := fun t : Store => t.QueueLedger ∧ a ∈ t.messageQueue) ⟨hl, ha⟩
    (fun t o ⟨hl, ha⟩ => ⟨step_ledger hl, ?_⟩) ops).2
  obtain ⟨b, hb, hab⟩ := step_moves hl o ha
  exact hab.of_final hf ▸ hb

/-- Exactly-once hand-off, over every run of the queue's operations. -/
theorem queue_handOff_once (projects : List Project) (ops : List (StoreOp × ℕ)) :
    let s := (Store.empty projects).after ops
    (∀ o, ∀ a ∈ s.messageQueue, ∃ b ∈ (s.step o).messageQueue,
      b.requestId = a.requestId ∧ b.sessionId = a.sessionId ∧ b.position = a.position ∧
        Delivers a b) ∧
    (∀ more, ∀ a ∈ s.messageQueue, a.status.final → a ∈ (s.after more).messageQueue) ∧
    (Runs.emitted step handed (Store.empty projects) ops).Nodup ∧
    s.sentRequests = (Runs.emitted step marked (Store.empty projects) ops).map Prod.fst ∧
    (∀ id requestId revision text now, (∀ row ∈ s.messageQueue, row.sessionId = id →
        row.requestId = requestId → row.data.revision ≠ revision) →
      ∀ op ∈ [StoreOp.edit id requestId revision text, .take id requestId revision,
        .markForwarded id requestId revision], (∃ e, s.apply (op, now) = .error e) ∧
          s.step (op, now) = s) := by
  have h₀ := empty_ledger projects
  have hl := after_ledger h₀ ops
  refine ⟨fun o a ha => ?_, fun more a ha hf => final_stays hl more ha hf, (handed_once h₀ ops).2,
    ?_, fun id requestId revision text now hstale => stale_refused hl hstale text⟩
  · obtain ⟨b, hb, hab⟩ := step_moves hl o ha
    exact ⟨b, hb, hab.requestId, hab.sessionId, hab.position, hab.delivers⟩
  · simpa [sentRequests, empty] using sent_marked h₀ ops

end Store

end LatteWork
