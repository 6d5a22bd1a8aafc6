import LatteWork.Proofs.QueueOrder

/-!
# Reordering a queue

A client sends the order it saw and the order it wants. The first is compared with the whole queue,
so the new ranks are given to every pending message at once, and the queue lists as ordered.
-/

namespace LatteWork

open Fallible Table

/-- The row of a request in `order`, ranked by its place. -/
def ranked (id : String) (k : ℕ) (order : List String) (row : QueueRow) : QueueRow :=
  if row.pendingIn id ∧ row.requestId ∈ order then
    { row with sortOrder := k + order.idxOf row.requestId }
  else row

theorem rank_eq_map (id : String) : ∀ {order : List String} (k : ℕ) (rows : List QueueRow),
    order.Nodup →
      (order.zipIdx k).foldl (fun rows (requestId, rank) =>
        updateWhere (QueueRow.isPending id requestId)
          (fun row => { row with sortOrder := rank }) rows) rows = rows.map (ranked id k order)
  | [], k, rows, _ => by
    have hid : ranked id k [] = fun row => row := funext fun row => by simp [ranked]
    simp [hid]
  | x :: order, k, rows, h => by
    obtain ⟨hx, hnodup⟩ := List.nodup_cons.1 h
    rw [List.zipIdx_cons, List.foldl_cons, rank_eq_map id (k + 1) _ hnodup]
    simp only [updateWhere, List.map_map]
    refine List.map_congr_left fun row _ => ?_
    by_cases hrow : row.requestId = x
    · -- ranked first, and not named again
      subst hrow
      by_cases hp : row.pendingIn id
      · have hip := QueueRow.isPending_iff.2
          ⟨⟨(QueueRow.pendingIn_iff.1 hp).1, rfl⟩, (QueueRow.pendingIn_iff.1 hp).2⟩
        simp [ranked, hip, hp, hx]
      · have hip : row.isPending id row.requestId = false := by
          rw [Bool.eq_false_iff]
          intro hip
          obtain ⟨⟨hid, -⟩, hst⟩ := QueueRow.isPending_iff.1 hip
          exact hp (QueueRow.pendingIn_iff.2 ⟨hid, hst⟩)
        simp [ranked, hip, hp]
    · have hip : row.isPending id x = false := by
        simp [QueueRow.isPending, QueueRow.is, hrow]
      have hidx : (x :: order).idxOf row.requestId = order.idxOf row.requestId + 1 :=
        List.idxOf_cons_ne _ (Ne.symm hrow)
      simp only [Function.comp_apply, hip, Bool.false_eq_true, if_false, ranked, List.mem_cons,
        hrow, false_or, hidx]
      split
      · congr 1
        omega
      · rfl

/-- The two lists of a reorder: at most sixteen ids, each once, the same in both. -/
structure Reorders (expected order : List String) : Prop where
  few : expected.length ≤ 16
  seenOnce : expected.Nodup
  wantedOnce : order.Nodup
  same : expected.Perm order
  valid : ∀ v ∈ order, v ≠ "" ∧ v.utf8ByteSize ≤ 100

namespace Store

variable {s s' : Store} {id : String} {expected order : List String}

/-- The ids of a queue as a client sees them. -/
def queuedIds (s : Store) (id : String) : Except String (List String) :=
  (s.queued id).map fun entries => entries.map (·.1.requestId)

/-- The checks on the two lists. -/
theorem reorders_iff : Reorders expected order ↔
    ¬(16 < expected.length ∨ expected.length ≠ order.length ∨
      ∃ v ∈ expected ++ order, v = "" ∨ 100 < v.utf8ByteSize) ∧
    ¬(¬expected.Nodup ∨ ¬order.Nodup ∨ ¬(expected ⊆ order ∧ order ⊆ expected)) := by
  constructor
  · intro h
    refine ⟨?_, ?_⟩
    · rintro (hlen | hlen | ⟨v, hv, hbad⟩)
      · exact absurd h.few (by omega)
      · exact hlen h.same.length_eq
      · have hmem : v ∈ order := by
          rcases List.mem_append.1 hv with hv | hv
          · exact h.same.subset hv
          · exact hv
        obtain ⟨hne, hsize⟩ := h.valid v hmem
        rcases hbad with hbad | hbad
        · exact hne hbad
        · omega
    · rintro (hn | hn | hn)
      · exact hn h.seenOnce
      · exact hn h.wantedOnce
      · exact hn ⟨h.same.subset, h.same.symm.subset⟩
  · rintro ⟨hform, hsets⟩
    simp only [not_or, not_not] at hform hsets
    obtain ⟨hseen, hwanted, hsub, hsup⟩ := hsets
    refine ⟨by omega, hseen, hwanted, ?_, fun v hv => ?_⟩
    · exact (List.perm_ext_iff_of_nodup hseen hwanted).2 fun v => ⟨fun h => hsub h, fun h => hsup h⟩
    · have hv' : ¬(v = "" ∨ 100 < v.utf8ByteSize) := fun hbad =>
        hform.2.2 ⟨v, List.mem_append_right _ hv, hbad⟩
      exact ⟨fun h => hv' (.inl h), by omega⟩

/-- A reorder is accepted on the order the client saw, and once more on the order it wants. -/
theorem reorderQueue_eq_ok : s.reorderQueue id expected order = .ok s' ↔
    Reorders expected order ∧ ∃ current, s.queuedIds id = .ok current ∧
      (current = order ∧ s' = s ∨
        current ≠ order ∧ current = expected ∧
          s' = { s with messageQueue := rank id order s.messageQueue }) := by
  rw [reorders_iff]
  simp only [reorderQueue, bind_eq_ok, bailIf_eq_ok, queuedIds, map_eq_ok]
  constructor
  · rintro ⟨_, hform, _, hsets, entries, hq, h⟩
    refine ⟨⟨hform, hsets⟩, _, ⟨entries, hq, rfl⟩, ?_⟩
    split at h
    · exact .inl ⟨‹_›, (Except.ok.inj h).symm⟩
    · simp only [bind_eq_ok, bailIf_eq_ok, Except.ok.injEq, not_not] at h
      obtain ⟨_, hseen, rfl⟩ := h
      exact .inr ⟨‹_›, hseen, rfl⟩
  · rintro ⟨⟨hform, hsets⟩, _, ⟨entries, hq, rfl⟩, h⟩
    refine ⟨(), hform, (), hsets, entries, hq, ?_⟩
    rcases h with ⟨hcur, rfl⟩ | ⟨hcur, hseen, rfl⟩
    · rw [if_pos hcur]
    · rw [if_neg hcur]
      simp only [bind_eq_ok, bailIf_eq_ok, not_not]
      exact ⟨(), hseen, trivial⟩

theorem queuedIds_eq (hi : s.QueueInv) {current : List String} (h : s.queuedIds id = .ok current) :
    current = (s.pendingRows id).map (·.requestId) := by
  obtain ⟨entries, hq, rfl⟩ := map_eq_ok.1 h
  rw [queued_eq_pendingRows hi hq, List.map_map]
  refine List.map_congr_left fun row hrow => ?_
  exact hi.ledger.named row (mem_pendingRows.1 hrow).1

section Ranked

variable {order : List String} {row : QueueRow}

@[simp]
theorem ranked_requestId (k : ℕ) : (ranked id k order row).requestId = row.requestId := by
  unfold ranked
  split <;> rfl

@[simp]
theorem ranked_data (k : ℕ) : (ranked id k order row).data = row.data := by
  unfold ranked
  split <;> rfl

@[simp]
theorem ranked_fingerprint (k : ℕ) : (ranked id k order row).fingerprint = row.fingerprint := by
  unfold ranked
  split <;> rfl

@[simp]
theorem ranked_pendingIn (k : ℕ) : (ranked id k order row).pendingIn id = row.pendingIn id := by
  unfold ranked
  split <;> rfl

end Ranked

/-- The queue with the pending messages of a session ranked by their place in `order`. -/
def reordered (s : Store) (id : String) (order : List String) : Store :=
  { s with messageQueue := s.messageQueue.map (ranked id 0 order) }

theorem rank_eq_reordered (h : order.Nodup) :
    { s with messageQueue := rank id order s.messageQueue } = s.reordered id order := by
  rw [reordered, ← rank_eq_map id 0 s.messageQueue h]
  rfl

/-- The same messages are listed, in some order. -/
theorem pendingRows_reordered :
    ((s.reordered id order).pendingRows id).Perm ((s.pendingRows id).map (ranked id 0 order)) := by
  refine (List.perm_insertionSort _ _).trans ?_
  refine List.Perm.trans ?_ ((List.perm_insertionSort _ _).symm.map _)
  simp only [reordered, List.filter_map]
  exact .of_eq (congrArg _ (List.filter_congr fun row _ => ranked_pendingIn 0))

/-- A queue whose ids are those of `order` lists in that order once it is ranked. -/
theorem ids_reordered (hnodup : order.Nodup)
    (hsame : ((s.pendingRows id).map (·.requestId)).Perm order) :
    ((s.reordered id order).pendingRows id).map (·.requestId) = order := by
  have hperm : (((s.reordered id order).pendingRows id).map (·.requestId)).Perm order := by
    have := (@pendingRows_reordered s id order).map (·.requestId)
    simp only [List.map_map] at this
    exact this.trans (.trans (.of_eq (List.map_congr_left fun row _ => ranked_requestId 0)) hsame)
  have hdistinct : (((s.reordered id order).pendingRows id).map (·.requestId)).Nodup :=
    hperm.nodup_iff.2 hnodup
  have hrank : ∀ row ∈ (s.reordered id order).pendingRows id,
      row.sortOrder = order.idxOf row.requestId := by
    intro row hrow
    have hmem : row.requestId ∈ order := hperm.subset (List.mem_map_of_mem hrow)
    obtain ⟨hrow, hp⟩ := mem_pendingRows.1 hrow
    obtain ⟨old, -, rfl⟩ := List.mem_map.1 hrow
    rw [ranked_pendingIn] at hp
    rw [ranked_requestId] at hmem ⊢
    simp [ranked, hp, hmem]
  have hlisted : (((s.reordered id order).pendingRows id).map (·.requestId)).Pairwise
      fun a b => order.idxOf a < order.idxOf b := by
    rw [List.pairwise_map]
    have hsorted := (pendingRows_before (s.reordered id order) id).and
      (List.pairwise_map.1 hdistinct)
    refine hsorted.imp_of_mem fun {a b} ha hb ⟨hab, hne⟩ => ?_
    have hle : order.idxOf a.requestId ≤ order.idxOf b.requestId := by
      rw [← hrank a ha, ← hrank b hb]
      simp only [QueueRow.before] at hab
      omega
    refine lt_of_le_of_ne hle fun heq => hne ?_
    exact (List.idxOf_inj (hperm.subset (List.mem_map_of_mem ha))).1 heq
  have hordered : order.Pairwise fun a b => order.idxOf a < order.idxOf b := by
    refine List.pairwise_iff_getElem.2 fun i j hi hj hij => ?_
    rwa [hnodup.idxOf_getElem, hnodup.idxOf_getElem]
  exact List.Perm.eq_of_pairwise (fun a b _ _ hab hba => absurd hab (by omega)) hlisted hordered hperm

/-- The order of a queue is a cell that a client swaps when it holds the order the client saw. -/
structure Swaps (s : Store) (id : String) (expected order : List String) : Prop where
  accepts : (∃ s', s.reorderQueue id expected order = .ok s') ↔ Reorders expected order ∧
    ∃ current, s.queuedIds id = .ok current ∧ (current = expected ∨ current = order)
  lists : ∀ s', s.reorderQueue id expected order = .ok s' → s'.queuedIds id = .ok order
  contents : ∀ s', s.reorderQueue id expected order = .ok s' → ∃ entries entries',
    s.queued id = .ok entries ∧ s'.queued id = .ok entries' ∧ entries'.Perm entries
  frame : ∀ s', s.reorderQueue id expected order = .ok s' →
    s' = { s with messageQueue := s'.messageQueue } ∧
      List.Forall₂ (fun a b => b = a ∨ a.pendingIn id ∧ ∃ n, b = { a with sortOrder := n })
        s.messageQueue s'.messageQueue
  repeats : ∀ s', s.reorderQueue id expected order = .ok s' →
    s'.reorderQueue id expected order = .ok s'
  refused : ∀ e now, s.reorderQueue id expected order = .error e →
    s.step (.reorder id expected order, now) = s

theorem queuedIds_of_session (hi : s.QueueInv) {x : Session} (hx : s.session id = .ok x) :
    s.queuedIds id = .ok ((s.pendingRows id).map (·.requestId)) := by
  have hq : s.queued id = .ok ((s.pendingRows id).map fun row => (row.data, row.fingerprint)) := by
    simp only [queued, hx, hi.take_pendingRows]
    rfl
  obtain ⟨current, hcur⟩ : ∃ current, s.queuedIds id = .ok current := ⟨_, by rw [queuedIds, hq]; rfl⟩
  rw [hcur, queuedIds_eq hi hcur]

/-- What one accepted reorder leaves, and that it leaves the invariant. -/
theorem reordered_lists (hi : s.QueueInv) (h : s.reorderQueue id expected order = .ok s') :
    s'.QueueInv ∧ (s' = s ∨ s' = s.reordered id order) ∧ s'.queuedIds id = .ok order := by
  have hi' : s'.QueueInv := apply_queueInv (o := (.reorder id expected order, 0)) hi h
  refine ⟨hi', ?_⟩
  obtain ⟨hr, current, hcur, ⟨hord, rfl⟩ | ⟨_, hexp, rfl⟩⟩ := reorderQueue_eq_ok.1 h
  · exact ⟨.inl rfl, hord ▸ hcur⟩
  · rw [rank_eq_reordered hr.wantedOnce] at hi' ⊢
    refine ⟨.inr rfl, ?_⟩
    obtain ⟨entries, hq, -⟩ := map_eq_ok.1 hcur
    obtain ⟨⟨x, hx⟩, -⟩ := queued_cases hq
    rw [queuedIds_of_session hi' (x := x) hx, ids_reordered hr.wantedOnce]
    rw [← queuedIds_eq hi hcur, hexp]
    exact hr.same

/-- The reorder of a queue is an atomic compare-and-swap, in every reachable database. -/
theorem reorder_swaps (projects : List Project) (ops : List (StoreOp × ℕ)) (id : String)
    (expected order : List String) :
    ((Store.empty projects).after ops).Swaps id expected order := by
  have hi := after_queueInv (empty_queueInv projects) ops
  generalize (Store.empty projects).after ops = s at hi
  refine ⟨?_, fun s' h => (reordered_lists hi h).2.2, fun s' h => ?_, fun s' h => ?_,
    fun s' h => ?_, fun e now h => step_error h⟩
  · constructor
    · rintro ⟨s', h⟩
      obtain ⟨hr, current, hcur, ⟨hord, -⟩ | ⟨-, hexp, -⟩⟩ := reorderQueue_eq_ok.1 h
      · exact ⟨hr, current, hcur, .inr hord⟩
      · exact ⟨hr, current, hcur, .inl hexp⟩
    · rintro ⟨hr, current, hcur, hsaw⟩
      by_cases hord : current = order
      · exact ⟨s, reorderQueue_eq_ok.2 ⟨hr, current, hcur, .inl ⟨hord, rfl⟩⟩⟩
      · refine ⟨_, reorderQueue_eq_ok.2 ⟨hr, current, hcur, .inr ⟨hord, ?_, rfl⟩⟩⟩
        exact hsaw.resolve_right hord
  · obtain ⟨hi', hs', hids⟩ := reordered_lists hi h
    obtain ⟨-, _, hcur, -⟩ := reorderQueue_eq_ok.1 h
    obtain ⟨entries, hq, -⟩ := map_eq_ok.1 hcur
    obtain ⟨entries', hq', -⟩ := map_eq_ok.1 hids
    refine ⟨entries, entries', hq, hq', ?_⟩
    rw [queued_eq_pendingRows hi hq, queued_eq_pendingRows hi' hq']
    obtain rfl | rfl := hs'
    · exact .refl _
    · refine (pendingRows_reordered.map _).trans (.of_eq ?_)
      rw [List.map_map]
      exact List.map_congr_left fun row _ => by simp
  · obtain ⟨-, rfl | rfl, -⟩ := reordered_lists hi h
    · exact ⟨rfl, List.forall₂_same.2 fun a _ => .inl rfl⟩
    · refine ⟨rfl, List.forall₂_map_right_iff.2 (List.forall₂_same.2 fun a _ => ?_)⟩
      unfold ranked
      split
      · exact .inr ⟨(‹_› : _ ∧ _).1, _, rfl⟩
      · exact .inl rfl
  · obtain ⟨-, -, hids⟩ := reordered_lists hi h
    exact reorderQueue_eq_ok.2 ⟨(reorderQueue_eq_ok.1 h).1, order, hids, .inl ⟨rfl, rfl⟩⟩

end Store

end LatteWork
