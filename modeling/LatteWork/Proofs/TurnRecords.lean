import LatteWork.Proofs.StoreCases

/-!
# The records of finished turns

A turn that has a record has no baseline any more, so only an undo can overwrite it: every other
operation keeps the records there are, and `finish_turn` adds one.
-/

namespace LatteWork

open Fallible Table

/-- A turn with a record is over, and the record is its own. -/
def TurnRow.Kept (row : TurnRow) : Prop :=
  ∀ t, row.data = some t → row.baseline = none ∧ t.changes.requestId = row.requestId

theorem TurnRow.is_iff {id requestId : String} {row : TurnRow} :
    row.is id requestId = true ↔ row.sessionId = id ∧ row.requestId = requestId := by
  simp [TurnRow.is]

namespace Store

def TurnsKept (s : Store) : Prop := ∀ row ∈ s.turnChanges, row.Kept

/-- The same turns have the same records. -/
structure SameTurns (s t : Store) : Prop where
  record : ∀ id requestId, t.turnRecord id requestId = s.turnRecord id requestId
  kept : s.TurnsKept → t.TurnsKept

namespace SameTurns

variable {s t u : Store}

theorem of_eq (h : t.turnChanges = s.turnChanges) : SameTurns s t :=
  ⟨fun _ _ => by rw [turnRecord, h, turnRecord], fun hk => by rwa [TurnsKept, h]⟩

theorem refl (s : Store) : SameTurns s s := of_eq rfl

theorem trans (h : SameTurns s t) (h' : SameTurns t u) : SameTurns s u :=
  ⟨fun id requestId => (h'.record id requestId).trans (h.record id requestId),
    fun hk => h'.kept (h.kept hk)⟩

end SameTurns

section

variable {s s' : Store} {id requestId : String} {now : ℕ}

/-- The record of a turn once some rows are changed, when the rows keep their keys. -/
theorem find?_updateWhere {p : TurnRow → Bool} {f : TurnRow → TurnRow} {rows : List TurnRow}
    (hf : ∀ row, (f row).is id requestId = row.is id requestId) :
    (updateWhere p f rows).find? (TurnRow.is id requestId) =
      (rows.find? (TurnRow.is id requestId)).map fun row => if p row then f row else row := by
  rw [updateWhere, List.find?_map]
  congr 1
  refine congrArg (fun q => rows.find? q) (funext fun row => ?_)
  by_cases h : p row
  · simp [h, hf]
  · simp [h]

/-- Only baselines change, and only to none or where there is one. -/
theorem updateBaselines_same {p : TurnRow → Bool} {f : TurnRow → Option Snapshot}
    (hf : ∀ row, p row → row.baseline = none → f row = none) {rows : List TurnRow}
    (hs' : s'.turnChanges = updateWhere p (fun row => { row with baseline := f row }) rows)
    (hs : s.turnChanges = rows) : SameTurns s s' := by
  refine ⟨fun id requestId => ?_, fun hk row hrow t ht => ?_⟩
  · rw [turnRecord, turnRecord, hs', hs, find?_updateWhere (by exact fun _ => rfl)]
    rcases rows.find? (TurnRow.is id requestId) with _ | row
    · rfl
    · by_cases h : p row <;> simp [h]
  · rw [hs'] at hrow
    obtain ⟨a, ha, rfl⟩ := mem_updateWhere.1 hrow
    rw [← hs] at ha
    by_cases h : p a
    · rw [if_pos h] at ht ⊢
      obtain ⟨hb, hreq⟩ := hk a ha t ht
      exact ⟨hf a h hb, hreq⟩
    · rw [if_neg h] at ht ⊢
      exact hk a ha t ht

theorem saveTurnBaseline_same {baseline : Snapshot}
    (h : s.saveTurnBaseline id requestId baseline = .ok s') : SameTurns s s' := by
  obtain rfl | rfl := saveTurnBaseline_cases h
  · exact .refl _
  · refine ⟨fun i r => ?_, fun hk row hrow t ht => ?_⟩
    · simp only [turnRecord, List.find?_append]
      rcases s.turnChanges.find? (TurnRow.is i r) with _ | row
      · by_cases hir : TurnRow.is i r ⟨id, requestId, some baseline, none⟩ <;>
          simp [hir]
      · rfl
    · rcases List.mem_append.1 hrow with hrow | hrow
      · exact hk row hrow t ht
      · obtain rfl : row = _ := List.mem_singleton.1 hrow
        cases ht

theorem loseTurn_same {turn : String × String} (h : loseTurn now s turn = .ok s') :
    SameTurns s s' := by
  simp only [loseTurn, bind_eq_ok, Except.ok.injEq] at h
  obtain ⟨t, ht, rfl⟩ := h
  obtain ⟨_, rows, e, rfl, _⟩ := event_cases ht
  exact updateBaselines_same (f := fun _ => none) (fun _ _ _ => rfl) rfl rfl

theorem event_same {e : EventKind} (h : s.event id e now = .ok s') : SameTurns s s' := by
  obtain ⟨_, _, _, rfl, _⟩ := event_cases h
  exact .of_eq rfl

theorem uncertainForwarded_same (h : s.uncertainForwarded id now = .ok s') : SameTurns s s' := by
  obtain ⟨rfl, _⟩ | ⟨_, _, rfl⟩ := uncertainForwarded_cases h
  · exact .refl _
  · exact .of_eq rfl

theorem pauseQueue_same {reason : Option String} (h : s.pauseQueue id reason = .ok s') :
    SameTurns s s' := by
  obtain ⟨_, rfl⟩ := pauseQueue_cases h
  exact .of_eq rfl

/-- A loop of steps that keep the records keeps them. -/
theorem foldlM_same {α : Type} {f : Store → α → Except String Store}
    (hf : ∀ s s' a, f s a = .ok s' → SameTurns s s') {l : List α} (h : l.foldlM f s = .ok s') :
    SameTurns s s' :=
  foldlM_keeps (P := SameTurns s) _ (fun _ _ _ _ hq hs => hq.trans (hf _ _ _ hs)) _ _ (.refl s) h

theorem reopen_same (h : s.reopen now = .ok s') : SameTurns s s' := by
  simp only [reopen, bind_eq_ok] at h
  obtain ⟨s₁, h₁, s₂, h₂, s₃, h₃, h₄⟩ := h
  have q₁ : SameTurns s s₁ := by
    refine SameTurns.trans (t := s.pauseRestarted) (.of_eq rfl) ?_
    refine foldlM_same (fun s s' id h => ?_) h₁
    simp only [quarantine, bind_eq_ok] at h
    obtain ⟨t, ht, h⟩ := h
    exact (uncertainForwarded_same ht).trans (pauseQueue_same h)
  have q₂ : SameTurns s₁ s₂ := foldlM_same (fun _ _ _ h => foldlM_same (fun _ _ _ => event_same) h) h₂
  have q₃ : SameTurns s₂ s₃ := foldlM_same (fun _ _ _ => loseTurn_same) h₃
  have q₄ : SameTurns s₃ s' := by
    refine foldlM_same (fun s s' x h => ?_) h₄
    exact SameTurns.trans (t := s.save _) (.of_eq rfl) (event_same h)
  exact ((q₁.trans q₂).trans q₃).trans q₄

/-- The operations of other handlers keep the records. -/
theorem apply_same {o : StoreOp} (ho : o.ofTurns = false) (h : s.apply (o, now) = .ok s') :
    SameTurns s s' := by
  cases o with
  | createSession fresh projectId agent =>
    obtain ⟨_, rfl⟩ := createSession_cases h
    exact .of_eq rfl
  | archive id archived =>
    obtain ⟨_, _, _, rfl⟩ := archiveSession_cases h
    exact .of_eq rfl
  | state id status message =>
    obtain ⟨_, _, rfl⟩ := state_cases h
    exact .of_eq rfl
  | event id e => exact event_same h
  | endSubagents id status => exact foldlM_same (fun _ _ _ => event_same) h
  | begin id r =>
    obtain ⟨⟨t, new⟩, ht, rfl⟩ := map_eq_ok.1 h
    obtain ⟨_, rfl, _⟩ | ⟨_, _, _, _, _, _, rfl⟩ := beginTurn_cases ht <;> exact .of_eq rfl
  | enqueue id r =>
    obtain ⟨_, _, _, _, _, _, rfl⟩ := enqueue_cases h
    exact .of_eq rfl
  | edit id requestId revision text =>
    obtain ⟨_, _, _, _, _, ⟨_, _, rfl, _⟩ | ⟨_, rfl⟩⟩ := editQueued_cases h <;> exact .of_eq rfl
  | reorder id expected order =>
    obtain rfl | rfl := reorderQueue_cases h <;> exact .of_eq rfl
  | take id requestId revision =>
    obtain ⟨⟨t, entry⟩, ht, rfl⟩ := map_eq_ok.1 h
    obtain ⟨_, _, _, _, _, _, _, rfl⟩ := takeQueued_cases ht
    exact .of_eq rfl
  | clear id =>
    obtain ⟨_, rfl⟩ := clearQueue_cases h
    exact .of_eq rfl
  | pause id reason => exact pauseQueue_same h
  | markForwarded id requestId revision =>
    obtain ⟨_, _, _, _, _, _, rfl⟩ := markForwarded_cases h
    refine updateBaselines_same (fun row hrow hnone => ?_) rfl rfl
    simp [TurnRow.runningIn, hnone] at hrow
  | rejectForwarded id requestId reason =>
    obtain ⟨rfl, _⟩ | ⟨_, _, _, _, _, _, rfl⟩ := rejectForwarded_cases h <;> exact .of_eq rfl
  | consumeForwarded id requests =>
    obtain rfl := Except.ok.inj h
    exact .of_eq rfl
  | uncertainForwarded id => exact uncertainForwarded_same h
  | nativeTitle id title custom =>
    obtain rfl | ⟨_, _, rfl⟩ := syncNativeTitle_cases h <;> exact .of_eq rfl
  | nativeSession id native =>
    obtain ⟨_, _, rfl⟩ := saveNativeSession_cases h
    exact .of_eq rfl
  | saveBaseline id snapshot =>
    obtain ⟨_, rfl⟩ := saveBaseline_cases h
    exact .of_eq rfl
  | saveTurnBaseline id requestId baseline => exact saveTurnBaseline_same h
  | finishTurn id turn => cases ho
  | updateTurn id turn => cases ho
  | reopen => cases ho

theorem turnRecord_requestId {t : FrozenTurn} (hk : s.TurnsKept)
    (h : s.turnRecord id requestId = some t) : t.changes.requestId = requestId := by
  obtain ⟨row, hrow, ht⟩ := Option.bind_eq_some_iff.1 h
  rw [(hk row (List.mem_of_find?_eq_some hrow) t ht).2]
  exact (TurnRow.is_iff.1 (List.find?_some hrow)).2

/-- A finished turn gets a record if it was running, and no other record changes. -/
theorem finishTurn_record {turn : FrozenTurn} (hk : s.TurnsKept)
    (h : s.finishTurn id turn now = .ok s') : s'.TurnsKept ∧ ∀ i r,
      s'.turnRecord i r = s.turnRecord i r ∨
        s.turnRecord i r = none ∧ s'.turnRecord i r = some turn := by
  obtain rfl | rfl := finishTurn_cases h
  · exact ⟨hk, fun _ _ => .inl rfl⟩
  refine ⟨fun row hrow t ht => ?_, fun i r => ?_⟩
  · obtain ⟨a, ha, rfl⟩ := mem_updateWhere.1 hrow
    by_cases hrun : a.running id turn.changes.requestId
    · rw [if_pos hrun] at ht ⊢
      obtain rfl := Option.some.inj ht
      simp only [TurnRow.running, Bool.and_eq_true, TurnRow.is_iff] at hrun
      exact ⟨rfl, hrun.1.2.symm⟩
    · rw [if_neg hrun] at ht ⊢
      exact hk a ha t ht
  · simp only [turnRecord, insertEvent_turnChanges]
    rw [find?_updateWhere (by exact fun _ => rfl)]
    rcases hfind : s.turnChanges.find? (TurnRow.is i r) with _ | row
    · exact .inl rfl
    · by_cases hrun : row.running id turn.changes.requestId
      · simp only [Option.map_some, if_pos hrun, Option.bind_some]
        right
        refine ⟨Option.eq_none_iff_forall_ne_some.2 fun t ht => ?_, trivial⟩
        have hbase := (hk row (List.mem_of_find?_eq_some hfind) t ht).1
        simp [TurnRow.running, hbase] at hrun
      · simp [hrun]

/-- An update changes the one record it is an update of. -/
theorem updateTurn_record {turn old : FrozenTurn} (hk : s.TurnsKept)
    (hold : s.turnRecord id turn.changes.requestId = some old)
    (h : s.updateTurn id turn now = .ok s') : s'.TurnsKept ∧
      s'.turnRecord id turn.changes.requestId = some turn ∧
      ∀ i r, ¬(i = id ∧ r = turn.changes.requestId) → s'.turnRecord i r = s.turnRecord i r := by
  obtain rfl := updateTurn_cases h
  refine ⟨fun row hrow t ht => ?_, ?_, fun i r hne => ?_⟩
  · obtain ⟨a, ha, rfl⟩ := mem_updateWhere.1 hrow
    by_cases hfin : a.finished id turn.changes.requestId
    · rw [if_pos hfin] at ht ⊢
      obtain rfl := Option.some.inj ht
      simp only [TurnRow.finished, Bool.and_eq_true, TurnRow.is_iff, Option.isSome_iff_exists] at hfin
      obtain ⟨⟨-, hreq⟩, t, ht⟩ := hfin
      exact ⟨(hk a ha t ht).1, hreq.symm⟩
    · rw [if_neg hfin] at ht ⊢
      exact hk a ha t ht
  · simp only [turnRecord, insertEvent_turnChanges] at hold ⊢
    rw [find?_updateWhere (by exact fun _ => rfl)]
    rcases hfind : s.turnChanges.find? (TurnRow.is id turn.changes.requestId) with _ | row
    · rw [hfind] at hold
      cases hold
    · rw [hfind, Option.bind_some] at hold
      have hfin : row.finished id turn.changes.requestId = true := by
        rw [TurnRow.finished, List.find?_some hfind, hold]
        rfl
      simp [hfin]
  · simp only [turnRecord, insertEvent_turnChanges]
    rw [find?_updateWhere (by exact fun _ => rfl)]
    rcases hfind : s.turnChanges.find? (TurnRow.is i r) with _ | row
    · rfl
    · have hfin : ¬row.finished id turn.changes.requestId = true := by
        intro hfin
        obtain ⟨rfl, rfl⟩ := TurnRow.is_iff.1 (List.find?_some hfind)
        simp only [TurnRow.finished, Bool.and_eq_true, TurnRow.is_iff] at hfin
        exact hne hfin.1
      simp [hfin]

end

end Store

end LatteWork
