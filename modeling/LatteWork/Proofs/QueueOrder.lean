import LatteWork.Proofs.HandOff

/-!
# One provider, first in first out

A queue holds at most sixteen messages, so a client sees all of it. `enqueue` compares a new
message with the messages that are pending at that moment and numbers it behind them; a message
that was handed off meanwhile is not among them. Its native rejection brings it back without
either check, and that is the only operation that can mix the providers of a queue or, short of a
reorder, break its order.
-/

namespace LatteWork

open Fallible Table

/-- Every session holds at most sixteen messages. -/
def WithinCapacity (rows : List QueueRow) : Prop :=
  ∀ id, (rows.filter (QueueRow.held id)).length ≤ 16

theorem WithinCapacity.moves {op : StoreOp} {rows rows' : List QueueRow}
    (h : WithinCapacity rows) (hm : List.Forall₂ (Moves op) rows rows') :
    WithinCapacity rows' := by
  intro id
  refine le_trans ?_ (h id)
  clear h
  induction hm with
  | nil => simp
  | @cons a b _ _ hab _ ih =>
    simp only [List.filter_cons]
    by_cases hb : b.held id
    · simpa [hb, hab.held_of hb] using ih
    · by_cases ha : a.held id <;> simp [hb, ha] <;> omega

theorem QueueRow.held_of_pendingIn {id : String} {row : QueueRow} (h : row.pendingIn id) :
    row.held id := by
  obtain ⟨hid, hst⟩ := QueueRow.pendingIn_iff.1 h
  simp [QueueRow.held, hid, hst]

namespace Store

variable {s s' : Store} {id : String} {now : ℕ}

/-- The ledger, and the limit on what a session holds. -/
structure QueueInv (s : Store) : Prop where
  ledger : s.QueueLedger
  capacity : WithinCapacity s.messageQueue

theorem apply_queueInv {o : StoreOp × ℕ} (hi : s.QueueInv) (h : s.apply o = .ok s') :
    s'.QueueInv := by
  refine ⟨apply_ledger hi.ledger h, ?_⟩
  obtain ⟨op, now⟩ := o
  obtain ⟨hm, _⟩ | ⟨id, r, ho, _, hq, _⟩ := apply_moves hi.ledger h
  · exact hi.capacity.moves hm
  · obtain rfl : op = _ := ho
    obtain ⟨_, _, hcount, _⟩ := enqueue_cases h
    intro id'
    have hcap := hi.capacity id'
    rw [hq, List.filter_append, List.length_append]
    by_cases hid : id' = id
    · subst hid
      refine le_trans (Nat.add_le_add_left (List.length_filter_le _ _) _) ?_
      exact hcount
    · have hout : (s.queuedRow id r now).held id' = false := by
        simp [QueueRow.held, queuedRow, Ne.symm hid]
      simpa [hout] using hcap

theorem step_queueInv (hi : s.QueueInv) (o : StoreOp × ℕ) : (s.step o).QueueInv :=
  Runs.attempt_keeps (fun _ h => apply_queueInv hi h) hi

theorem empty_queueInv (projects : List Project) : (Store.empty projects).QueueInv :=
  ⟨empty_ledger projects, fun _ => by simp [empty]⟩

theorem after_queueInv (hi : s.QueueInv) (ops : List (StoreOp × ℕ)) : (s.after ops).QueueInv :=
  Runs.run_keeps hi (fun _ o h => step_queueInv h o) ops

theorem mem_pendingRows {row : QueueRow} :
    row ∈ s.pendingRows id ↔ row ∈ s.messageQueue ∧ row.pendingIn id := by
  simp [pendingRows, List.mem_insertionSort, List.mem_filter]

/-- A client that lists a queue lists all of it. -/
theorem QueueInv.take_pendingRows (hi : s.QueueInv) : (s.pendingRows id).take 16 = s.pendingRows id := by
  refine List.take_of_length_le ?_
  rw [pendingRows, List.length_insertionSort]
  refine le_trans ?_ (hi.capacity id)
  rw [← List.countP_eq_length_filter, ← List.countP_eq_length_filter]
  exact List.countP_mono_left fun row _ h => QueueRow.held_of_pendingIn h

theorem queued_eq_pendingRows (hi : s.QueueInv) {entries : List (QueuedMessage × Option String)}
    (h : s.queued id = .ok entries) :
    entries = (s.pendingRows id).map fun row => (row.data, row.fingerprint) := by
  obtain ⟨_, rfl⟩ := queued_cases h
  rw [hi.take_pendingRows]

end Store

/-- A message as its rejection returns it: pending, at the next revision. -/
def QueueRow.returned (row : QueueRow) : QueueRow :=
  { row with status := .pending, data := { row.data with revision := row.data.revision + 1 } }

namespace Store

variable {s s' : Store} {id : String} {now : ℕ}

/-- The operation is a native rejection that returns this message to its queue. -/
def Returns (s : Store) (op : StoreOp) (row : QueueRow) : Prop :=
  row ∈ s.messageQueue ∧ row.status = .forwarded ∧ row.data.revision + 1 < 2 ^ 32 ∧
    ∃ reason, op = .rejectForwarded row.sessionId row.requestId reason

/-- The queue after a message was returned. -/
def withReturned (s : Store) (row : QueueRow) : List QueueRow :=
  updateWhere (fun q => q.position = row.position) (fun _ => row.returned) s.messageQueue

theorem mem_withReturned {row b : QueueRow} (hrow : row ∈ s.messageQueue) :
    b ∈ s.withReturned row ↔
      b = row.returned ∨ b ∈ s.messageQueue ∧ b.position ≠ row.position := by
  rw [withReturned, mem_updateWhere]
  constructor
  · rintro ⟨q, hq, rfl⟩
    by_cases hpos : q.position = row.position
    · simp [hpos]
    · simp [hpos, hq]
  · rintro (rfl | ⟨hb, hpos⟩)
    · exact ⟨row, hrow, by simp⟩
    · exact ⟨b, hb, by simp [hpos]⟩

theorem rejected_eq_withReturned (hl : s.QueueLedger) {requestId : String} {row : QueueRow}
    (hrow : row ∈ s.messageQueue) (hf : row.isForwarded id requestId) :
    updateWhere (QueueRow.isForwarded id requestId) (fun q => { q with
      status := .pending
      data := { row.data with revision := row.data.revision + 1 } }) s.messageQueue =
      s.withReturned row := by
  simp only [withReturned, updateWhere]
  refine List.map_congr_left fun q hq => ?_
  by_cases hqf : q.isForwarded id requestId
  · obtain rfl : q = row := hl.row_eq hq hrow
      ((QueueRow.isForwarded_iff.1 hqf).1.2.trans (QueueRow.isForwarded_iff.1 hf).1.2.symm)
    simp [hf, QueueRow.returned]
  · have hne : q.position ≠ row.position := fun hpos =>
      hqf (hl.position_eq hq hrow hpos ▸ hf)
    simp [hqf, hne]

/-- A rejection changes nothing, or returns one message. -/
theorem rejectForwarded_returns (hl : s.QueueLedger) {requestId reason : String}
    (h : s.rejectForwarded id requestId reason now = .ok s') :
    s' = s ∨ ∃ row, s.Returns (.rejectForwarded id requestId reason) row ∧
      s'.messageQueue = s.withReturned row := by
  obtain ⟨rfl, _⟩ | ⟨row, hrow, hf, hrev, _, _, rfl⟩ := rejectForwarded_cases h
  · exact .inl rfl
  obtain ⟨⟨hid, hreq⟩, hst⟩ := QueueRow.isForwarded_iff.1 hf
  exact .inr ⟨row, ⟨hrow, hst, hrev, reason, by rw [hid, hreq]⟩,
    rejected_eq_withReturned hl hrow hf⟩

/-- A rejection that can return a message does. -/
theorem step_of_returns (hl : s.QueueLedger) {op : StoreOp} {row : QueueRow} (now : ℕ)
    (h : s.Returns op row) : (s.step (op, now)).messageQueue = s.withReturned row := by
  obtain ⟨hrow, hst, hrev, reason, rfl⟩ := h
  have hf : row.isForwarded row.sessionId row.requestId := by simp [QueueRow.isForwarded_iff, hst]
  rcases hfind : s.messageQueue.find? (QueueRow.isForwarded row.sessionId row.requestId) with _ | q
  · exact absurd hf (by simpa using List.find?_eq_none.1 hfind row hrow)
  obtain rfl : q = row := hl.row_eq (List.mem_of_find?_eq_some hfind) hrow
    (QueueRow.isForwarded_iff.1 (List.find?_some hfind)).1.2
  have hok : ∃ t, s.rejectForwarded q.sessionId q.requestId reason now = .ok t := by
    simp only [rejectForwarded, hfind, nextRevision, if_pos hrev, orError, bind, Except.bind,
      Except.ok.injEq, exists_eq']
  obtain ⟨t, ht⟩ := hok
  rw [step_ok (o := (.rejectForwarded q.sessionId q.requestId reason, now)) ht]
  obtain ⟨_, hnone⟩ | ⟨row, hrow', hf', _, _, _, rfl⟩ := rejectForwarded_cases ht
  · exact absurd hf (by simp [hnone q hrow])
  · obtain rfl : row = q := hl.row_eq hrow' hrow (QueueRow.isForwarded_iff.1 hf').1.2
    exact rejected_eq_withReturned hl hrow hf

/-- Where a pending message comes from: it was pending, it was returned, or it is new. -/
theorem pending_origin (hl : s.QueueLedger) {o : StoreOp × ℕ} (h : s.apply o = .ok s')
    {b : QueueRow} (hb : b ∈ s'.messageQueue) (hp : b.pendingIn id) :
    (∃ a ∈ s.messageQueue, a.pendingIn id ∧ Moves o.1 a b) ∨
    (∃ a, s.Returns o.1 a ∧ a.sessionId = id ∧ b = a.returned) ∨
    ∃ r, o.1 = .enqueue id r ∧ b = s.queuedRow id r o.2 := by
  obtain ⟨hid, hst⟩ := QueueRow.pendingIn_iff.1 hp
  obtain ⟨hm, _⟩ | ⟨id', r, ho, _, hq, _⟩ := apply_moves hl h
  · obtain ⟨a, ha, hab⟩ := forall₂_source hm hb
    have hida : a.sessionId = id := hab.sessionId ▸ hid
    rcases hab.pending_of hst with hpa | ⟨hr, hf⟩
    · exact .inl ⟨a, ha, QueueRow.pendingIn_iff.2 ⟨hida, hpa⟩, hab⟩
    obtain ⟨op, now⟩ := o
    cases op with
    | rejectForwarded id' requestId reason =>
      obtain rfl | ⟨row, hret, hq⟩ := rejectForwarded_returns hl h
      · exact absurd (hl.position_eq hb ha hab.position ▸ hst) (by simp [hf])
      rw [hq, mem_withReturned hret.1] at hb
      obtain rfl | ⟨hb, _⟩ := hb
      · exact .inr (.inl ⟨row, hret, hid, rfl⟩)
      · exact absurd (hl.position_eq hb ha hab.position ▸ hst) (by simp [hf])
    | _ => simp [StoreOp.returns] at hr
  · rw [hq] at hb
    rcases List.mem_append.1 hb with hb | hb
    · exact .inl ⟨b, hb, hp, .stay b⟩
    · obtain rfl := List.mem_singleton.1 hb
      obtain rfl : id' = id := hid
      exact .inr (.inr ⟨r, ho, rfl⟩)

theorem Returns.unique (hl : s.QueueLedger) {op : StoreOp} {a b : QueueRow} (ha : s.Returns op a)
    (hb : s.Returns op b) : a = b := by
  obtain ⟨ha, _, _, _, rfl⟩ := ha
  obtain ⟨hb, _, _, _, hop⟩ := hb
  exact hl.row_eq ha hb (StoreOp.rejectForwarded.inj hop).2.1

/-- All pending messages of a session go to one provider. -/
def SingleProvider (s : Store) : Prop :=
  ∀ id, ∀ a ∈ s.messageQueue, ∀ b ∈ s.messageQueue, a.pendingIn id → b.pendingIn id →
    a.fingerprint = b.fingerprint

/-- A message that the operation returns finds only messages to its own provider. -/
def ReturnsToOwn (s : Store) (op : StoreOp) : Prop :=
  ∀ row, s.Returns op row → ∀ q ∈ s.messageQueue, q.pendingIn row.sessionId →
    q.fingerprint = row.fingerprint

/-- A new message goes to the provider of those that are pending. -/
theorem enqueue_fingerprint (hi : s.QueueInv) {r : Submission} (h : s.enqueue id r now = .ok s')
    {a : QueueRow} (ha : a ∈ s.messageQueue) (hp : a.pendingIn id) :
    a.fingerprint = r.fingerprint := by
  obtain ⟨_, hfp, _⟩ := enqueue_cases h
  rw [hi.take_pendingRows] at hfp
  exact hfp a (mem_pendingRows.2 ⟨ha, hp⟩)

theorem apply_singleProvider (hi : s.QueueInv) (hs : s.SingleProvider) {o : StoreOp × ℕ}
    (hret : s.ReturnsToOwn o.1) (h : s.apply o = .ok s') : s'.SingleProvider := by
  intro id a ha b hb hap hbp
  obtain ⟨op, now⟩ := o
  rcases pending_origin hi.ledger h ha hap with
    ⟨a₀, ha₀, hap₀, ham⟩ | ⟨row, hrow, rfl, rfl⟩ | ⟨r, rfl, rfl⟩ <;>
    rcases pending_origin hi.ledger h hb hbp with
      ⟨b₀, hb₀, hbp₀, hbm⟩ | ⟨row', hrow', hid, rfl⟩ | ⟨r', hr', rfl⟩
  · rw [ham.fingerprint, hbm.fingerprint]
    exact hs id a₀ ha₀ b₀ hb₀ hap₀ hbp₀
  · rw [ham.fingerprint]
    exact hret row' hrow' a₀ ha₀ (hid ▸ hap₀)
  · obtain rfl : op = _ := hr'
    rw [ham.fingerprint]
    exact enqueue_fingerprint hi h ha₀ hap₀
  · rw [hbm.fingerprint]
    exact (hret row hrow b₀ hb₀ hbp₀).symm
  · rw [hrow.unique hi.ledger hrow']
  · obtain ⟨_, _, _, _, hop⟩ := hrow
    exact absurd (hop.symm.trans hr') (by simp)
  · rw [hbm.fingerprint]
    exact (enqueue_fingerprint hi h hb₀ hbp₀).symm
  · obtain ⟨_, _, _, _, hop⟩ := hrow'
    exact absurd hop (by simp)
  · obtain ⟨_, rfl⟩ := StoreOp.enqueue.inj hr'
    rfl

theorem step_singleProvider_iff (hi : s.QueueInv) (hs : s.SingleProvider) (o : StoreOp × ℕ) :
    (s.step o).SingleProvider ↔ s.ReturnsToOwn o.1 := by
  refine ⟨fun h row hret q hq hqp => ?_,
    fun hret => Runs.attempt_keeps (fun _ => apply_singleProvider hi hs hret) hs⟩
  obtain ⟨op, now⟩ := o
  have hstep := step_of_returns hi.ledger now hret
  obtain ⟨hid, hqst⟩ := QueueRow.pendingIn_iff.1 hqp
  have hne : q.position ≠ row.position := fun hpos =>
    absurd (hi.ledger.position_eq hq hret.1 hpos ▸ hqst) (by simp [hret.2.1])
  refine h row.sessionId q ?_ row.returned ?_ hqp
    (by simp [QueueRow.pendingIn, QueueRow.returned])
  · rw [hstep, mem_withReturned hret.1]
    exact .inr ⟨hq, hne⟩
  · rw [hstep, mem_withReturned hret.1]
    exact .inl rfl

/-- A short message. -/
def note (requestId : String) (fingerprint : Option String) : Submission :=
  { requestId, text := "t", model := none, effort := none, fingerprint, permissionMode := none }

/-- A message is handed off, another to a second provider is queued, and the first is refused. -/
def mixedRun : List (StoreOp × ℕ) :=
  [(.createSession "s" "p" "claude", 0), (.enqueue "s" (note "a" none), 1),
    (.markForwarded "s" "a" 0, 2), (.enqueue "s" (note "b" (some "f")), 3),
    (.rejectForwarded "s" "a" "no", 4)]

/-- A reachable queue with two providers. -/
theorem mixedRun_two_providers :
    ¬∀ projects ops, ((Store.empty projects).after ops).SingleProvider := by
  intro h
  have hmixed : ∃ a ∈ ((Store.empty [⟨"p", "p", "/p"⟩]).after mixedRun).messageQueue,
      ∃ b ∈ ((Store.empty [⟨"p", "p", "/p"⟩]).after mixedRun).messageQueue,
        a.pendingIn "s" ∧ b.pendingIn "s" ∧ a.fingerprint ≠ b.fingerprint := by decide +kernel
  obtain ⟨a, ha, b, hb, hap, hbp, hne⟩ := hmixed
  exact hne (h _ _ "s" a ha b hb hap hbp)

/-- A queue has one provider throughout a run exactly when every message that comes back finds
only messages to its own. -/
theorem singleProvider_iff (projects : List Project) (ops : List (StoreOp × ℕ)) :
    (∀ ahead, ahead <+: ops → ((Store.empty projects).after ahead).SingleProvider) ↔
      ∀ ahead o, ahead ++ [o] <+: ops → ((Store.empty projects).after ahead).ReturnsToOwn o.1 :=
  Runs.prefixes_iff (A := fun _ => True) (empty_queueInv projects)
    (fun _ o h => step_queueInv h o) (fun _ _ ha => by simp [empty] at ha)
    (fun _ o _ hi hs => step_singleProvider_iff hi hs o) fun _ _ => trivial

/-- A queue is listed in the order of admission. -/
def InOrder (s : Store) : Prop := ∀ id, (s.pendingRows id).Pairwise (·.position < ·.position)

/-- Of two pending messages the one admitted first has no later rank. -/
def Ranked (s : Store) : Prop :=
  ∀ id, ∀ a ∈ s.messageQueue, ∀ b ∈ s.messageQueue, a.pendingIn id → b.pendingIn id →
    a.position < b.position → a.sortOrder ≤ b.sortOrder

/-- A message that the operation returns fits its rank between those admitted before it and those
admitted after it. -/
def ReturnsInPlace (s : Store) (op : StoreOp) : Prop :=
  ∀ row, s.Returns op row → ∀ q ∈ s.messageQueue, q.pendingIn row.sessionId →
    (q.position < row.position → q.sortOrder ≤ row.sortOrder) ∧
      (row.position < q.position → row.sortOrder ≤ q.sortOrder)

instance : IsTrans QueueRow QueueRow.before where
  trans a b c hab hbc := by
    simp only [QueueRow.before] at *
    omega

instance : Std.Total QueueRow.before where
  total a b := by
    simp only [QueueRow.before]
    omega

theorem pendingRows_before (s : Store) (id : String) :
    (s.pendingRows id).Pairwise QueueRow.before :=
  List.pairwise_insertionSort _ _

theorem inOrder_iff_ranked (hl : s.QueueLedger) : s.InOrder ↔ s.Ranked := by
  constructor
  · intro h id a ha b hb hap hbp hlt
    have hpair := (h id).and (pendingRows_before s id)
    refine List.Pairwise.forall_of_forall_of_flip
      (R := fun x y : QueueRow => x.position < y.position → x.sortOrder ≤ y.sortOrder)
      (fun x _ => by simp) (hpair.imp fun {x y} ⟨_, hxy⟩ _ => ?_)
      (hpair.imp fun {x y} ⟨hlt, _⟩ hgt => absurd hlt (by omega))
      (mem_pendingRows.2 ⟨ha, hap⟩) (mem_pendingRows.2 ⟨hb, hbp⟩) hlt
    simp only [QueueRow.before] at hxy
    omega
  · intro h id
    have hdistinct : (s.pendingRows id).Pairwise fun a b => a.position ≠ b.position := by
      have hperm : (s.pendingRows id).Perm (s.messageQueue.filter (QueueRow.pendingIn id)) :=
        List.perm_insertionSort _ _
      refine (hperm.pairwise_iff fun {_ _} h => h.symm).2 ?_
      exact (hl.positions.imp fun hab => Nat.ne_of_lt hab).filter _
    refine (hdistinct.and (pendingRows_before s id)).imp_of_mem fun {a b} ha hb ⟨hne, hab⟩ => ?_
    obtain ⟨ha, hap⟩ := mem_pendingRows.1 ha
    obtain ⟨hb, hbp⟩ := mem_pendingRows.1 hb
    have := h id b hb a ha hbp hap
    simp only [QueueRow.before] at hab
    omega

theorem sortOrder_le_foldr_max : ∀ {l : List ℕ} {n : ℕ}, n ∈ l → n ≤ l.foldr max 0
  | m :: l, n, h => by
    rcases List.mem_cons.1 h with rfl | h
    · exact Nat.le_max_left _ _
    · exact (sortOrder_le_foldr_max h).trans (Nat.le_max_right _ _)

/-- A new message is ranked behind every pending one. -/
theorem sortOrder_lt_next {a : QueueRow} (ha : a ∈ s.messageQueue) (hp : a.pendingIn id) :
    a.sortOrder < s.nextSortOrder id :=
  Nat.lt_succ_of_le (sortOrder_le_foldr_max
    (List.mem_map.2 ⟨a, List.mem_filter.2 ⟨ha, hp⟩, rfl⟩))

theorem apply_ranked (hi : s.QueueInv) (hs : s.Ranked) {o : StoreOp × ℕ}
    (ho : o.1.reorders = false) (hret : s.ReturnsInPlace o.1) (h : s.apply o = .ok s') :
    s'.Ranked := by
  intro id a ha b hb hap hbp hlt
  obtain ⟨op, now⟩ := o
  rcases pending_origin hi.ledger h ha hap with
    ⟨a₀, ha₀, hap₀, ham⟩ | ⟨row, hrow, rfl, rfl⟩ | ⟨r, rfl, rfl⟩ <;>
    rcases pending_origin hi.ledger h hb hbp with
      ⟨b₀, hb₀, hbp₀, hbm⟩ | ⟨row', hrow', hid, rfl⟩ | ⟨r', hr', rfl⟩
  · rw [ham.sortOrder ho, hbm.sortOrder ho]
    rw [ham.position, hbm.position] at hlt
    exact hs id a₀ ha₀ b₀ hb₀ hap₀ hbp₀ hlt
  · rw [ham.sortOrder ho]
    rw [ham.position] at hlt
    exact (hret row' hrow' a₀ ha₀ (hid ▸ hap₀)).1 hlt
  · rw [ham.sortOrder ho]
    exact (sortOrder_lt_next ha₀ hap₀).le
  · rw [hbm.sortOrder ho]
    rw [hbm.position] at hlt
    exact (hret row hrow b₀ hb₀ hbp₀).2 hlt
  · rw [hrow.unique hi.ledger hrow'] at hlt
    exact absurd hlt (lt_irrefl _)
  · obtain ⟨_, _, _, _, hop⟩ := hrow
    exact absurd (hop.symm.trans hr') (by simp)
  · have := hi.ledger.bounded b₀ hb₀
    rw [hbm.position] at hlt
    simp only [queuedRow] at hlt
    omega
  · obtain ⟨_, _, _, _, hop⟩ := hrow'
    exact absurd hop (by simp)
  · exact absurd hlt (lt_irrefl _)

theorem step_ranked_iff (hi : s.QueueInv) (hs : s.Ranked) {o : StoreOp × ℕ}
    (ho : o.1.reorders = false) : (s.step o).Ranked ↔ s.ReturnsInPlace o.1 := by
  refine ⟨fun h row hret q hq hqp => ?_,
    fun hret => Runs.attempt_keeps (fun _ => apply_ranked hi hs ho hret) hs⟩
  obtain ⟨op, now⟩ := o
  have hstep := step_of_returns hi.ledger now hret
  obtain ⟨hid, hqst⟩ := QueueRow.pendingIn_iff.1 hqp
  have hne : q.position ≠ row.position := fun hpos =>
    absurd (hi.ledger.position_eq hq hret.1 hpos ▸ hqst) (by simp [hret.2.1])
  have hq' : q ∈ (s.step (op, now)).messageQueue := by
    rw [hstep, mem_withReturned hret.1]
    exact .inr ⟨hq, hne⟩
  have hrow' : row.returned ∈ (s.step (op, now)).messageQueue := by
    rw [hstep, mem_withReturned hret.1]
    exact .inl rfl
  have hrp : row.returned.pendingIn row.sessionId := by
    simp [QueueRow.pendingIn, QueueRow.returned]
  exact ⟨h _ q hq' row.returned hrow' hqp hrp, h _ row.returned hrow' q hq' hrp hqp⟩

/-- Two messages are handed off, a third is queued, and the second is refused. -/
def overtakenRun : List (StoreOp × ℕ) :=
  [(.createSession "s" "p" "claude", 0), (.enqueue "s" (note "a" none), 1),
    (.enqueue "s" (note "b" none), 2), (.markForwarded "s" "a" 0, 3), (.markForwarded "s" "b" 0, 4),
    (.enqueue "s" (note "c" none), 5), (.rejectForwarded "s" "b" "no", 6)]

/-- A run without a reorder after which a later message goes first. -/
theorem overtakenRun_out_of_order :
    ¬∀ projects ops, (∀ o ∈ ops, o.1.reorders = false) → ((Store.empty projects).after ops).InOrder := by
  intro h
  have hlisted : (((Store.empty [⟨"p", "p", "/p"⟩]).after overtakenRun).pendingRows "s").map
      (·.position) = [3, 2] := by decide +kernel
  have := h [⟨"p", "p", "/p"⟩] overtakenRun (by decide) "s"
  rw [← List.pairwise_map (f := QueueRow.position) (R := (· < ·)), hlisted] at this
  exact absurd this (by decide)

/-- Without a reorder, a queue is in the order of admission throughout a run exactly when every
message that comes back fits its rank. What a client lists is the whole queue, in that order. -/
theorem inOrder_iff (projects : List Project) (ops : List (StoreOp × ℕ))
    (hno : ∀ o ∈ ops, o.1.reorders = false) :
    ((∀ ahead, ahead <+: ops → ((Store.empty projects).after ahead).InOrder) ↔
      ∀ ahead o, ahead ++ [o] <+: ops →
        ((Store.empty projects).after ahead).ReturnsInPlace o.1) ∧
    ∀ id entries, ((Store.empty projects).after ops).queued id = .ok entries →
      entries = (((Store.empty projects).after ops).pendingRows id).map fun row =>
        (row.data, row.fingerprint) := by
  have h₀ := empty_queueInv projects
  refine ⟨?_, fun id entries h => queued_eq_pendingRows (after_queueInv h₀ ops) h⟩
  have hranked := Runs.prefixes_iff (P := Ranked) (A := fun o => o.1.reorders = false) h₀
    (fun _ o h => step_queueInv h o) (fun _ _ ha => by simp [empty] at ha)
    (fun _ o ho hi hs => step_ranked_iff hi hs ho) hno
  refine Iff.trans (forall₂_congr fun ahead _ => ?_) hranked
  exact inOrder_iff_ranked (after_ledger h₀.ledger ahead)

theorem inOrder_iff_overtakenRun :
    ((∀ ahead, ahead <+: overtakenRun → ((Store.empty []).after ahead).InOrder) ↔
      ∀ ahead o, ahead ++ [o] <+: overtakenRun →
        ((Store.empty []).after ahead).ReturnsInPlace o.1) ∧
    ∀ id entries, ((Store.empty []).after overtakenRun).queued id = .ok entries →
      entries = (((Store.empty []).after overtakenRun).pendingRows id).map fun row =>
        (row.data, row.fingerprint) :=
  inOrder_iff [] overtakenRun (by decide)

end Store

end LatteWork
