import LatteWork.Proofs.ChildRows

/-!
# The end of a child

A child that completed, failed or was stopped is not brought back by late progress. What can bring
it back is a report that it is unknown: the guard lets that replace the end, and progress replaces
the unknown.
-/

namespace LatteWork

open Fallible Table

/-- The native side confirmed how the child ended. -/
def SubagentStatus.confirmed : SubagentStatus → Bool
  | .completed | .failed | .stopped => true
  | _ => false

/-- A report about a child: the session, the update, and the time. -/
abbrev ChildReport := String × SubagentUpdate × ℕ

theorem Subagent.merge_confirmed {task : Subagent} {u : SubagentUpdate} {now : ℕ}
    (h : task.status.confirmed) (hu : u.status ≠ some .unknown) :
    (task.merge u now).status.confirmed := by
  unfold merge
  rcases hs : u.status with _ | status
  · exact h
  · have hne : status ≠ .unknown := fun he => hu (by rw [hs, he])
    have hact : task.status.active = false := by
      cases ht : task.status <;> simp_all [SubagentStatus.confirmed, SubagentStatus.active]
    have hknown : task.status ≠ .unknown := by
      rintro ht
      simp [ht, SubagentStatus.confirmed] at h
    simp only [mergeStatus, hact, Bool.false_eq_true, hknown, false_or]
    cases status <;> simp_all [SubagentStatus.confirmed, SubagentStatus.active]

namespace Store

open SubagentRow

variable {s s' t : Store} {id : String} {now : ℕ}

/-- The database with a report recorded. -/
def recorded (s : Store) (r : ChildReport) : Store := (s.recordSubagent r.1 r.2.1 r.2.2).1

/-- The reports of `end_subagents`. -/
def endReports (s : Store) (id : String) (status : SubagentStatus) (now : ℕ) : List ChildReport :=
  (s.subagents.filter fun r => r.sessionId = id && r.task.status.active).map fun row =>
    (id, row.renamed status, now)

/-- The reports of `open`, session by session. -/
def restartReports (now : ℕ) : Store → List String → List ChildReport
  | _, [] => []
  | s, id :: ids =>
    s.endReports id .unknown now ++
      restartReports now (Runs.run recorded s (s.endReports id .unknown now)) ids

/-- What an operation reports about children. -/
def reports (s : Store) (o : StoreOp × ℕ) : List ChildReport :=
  match o.1 with
  | .event id e =>
    match e.event with
    | .subagent u => [(id, u, o.2)]
    | _ => []
  | .endSubagents id status => s.endReports id status o.2
  | .reopen => restartReports o.2 s
      ((s.subagents.filter (·.task.status.active)).map (·.sessionId)).dedup
  | _ => []

/-- The rows of the children depend on those before and the reports alone. -/
theorem run_recorded_congr (h : s.subagents = t.subagents) : ∀ rs : List ChildReport,
    (Runs.run recorded s rs).subagents = (Runs.run recorded t rs).subagents := by
  intro rs
  induction rs using List.reverseRecOn with
  | nil => exact h
  | append_singleton rs r ih =>
    rw [Runs.run_concat, Runs.run_concat]
    simp only [recorded, recordSubagent, subagentFor, ih]

/-- The loop of `end_subagents`. -/
theorem foldlM_reports {status : SubagentStatus} : ∀ (l : List SubagentRow) {s s' : Store},
    l.foldlM (fun s row => s.event id (.subagent (row.renamed status)) now) s = .ok s' →
      s'.subagents =
        (Runs.run recorded s (l.map fun row => (id, row.renamed status, now))).subagents
  | [], s, s', h => by
    simp only [List.foldlM_nil, pure_eq_ok] at h
    rw [h]
    rfl
  | row :: l, s, s', h => by
    simp only [List.foldlM_cons, bind_eq_ok] at h
    obtain ⟨t, ht, h⟩ := h
    rw [foldlM_reports l h]
    exact run_recorded_congr (event_children ht).2 _

theorem endSubagents_reports {status : SubagentStatus} (h : s.endSubagents id status now = .ok s') :
    s'.subagents = (Runs.run recorded s (s.endReports id status now)).subagents :=
  foldlM_reports _ h

theorem restartReports_congr : ∀ (ids : List String) {s t : Store}, s.subagents = t.subagents →
    restartReports now s ids = restartReports now t ids
  | [], _, _, _ => rfl
  | id :: ids, s, t, h => by
    have hends : s.endReports id .unknown now = t.endReports id .unknown now := by
      rw [endReports, h, endReports]
    rw [restartReports, restartReports, hends, restartReports_congr ids (run_recorded_congr h _)]

/-- The loop of `open` over the sessions. -/
theorem foldlM_restartReports : ∀ (ids : List String) {s s' : Store},
    ids.foldlM (fun s id => s.endSubagents id .unknown now) s = .ok s' →
      s'.subagents = (Runs.run recorded s (restartReports now s ids)).subagents
  | [], s, s', h => by
    simp only [List.foldlM_nil, pure_eq_ok] at h
    rw [h]
    rfl
  | id :: ids, s, s', h => by
    simp only [List.foldlM_cons, bind_eq_ok] at h
    obtain ⟨t, ht, h⟩ := h
    have hc := endSubagents_reports ht
    rw [foldlM_restartReports ids h, restartReports, Runs.run_append, restartReports_congr ids hc]
    exact run_recorded_congr hc _

/-- The children after an accepted operation are those of its reports. -/
theorem apply_reports {o : StoreOp × ℕ} (h : s.apply o = .ok s') :
    s'.subagents = (Runs.run recorded s (s.reports o)).subagents := by
  obtain ⟨op, now⟩ := o
  cases op with
  | event id e =>
    rw [(event_children h).2]
    simp only [reports]
    cases e.event <;> rfl
  | endSubagents id status => exact endSubagents_reports h
  | reopen =>
    simp only [apply, reopen, bind_eq_ok] at h
    obtain ⟨s₁, h₁, s₂, h₂, s₃, h₃, h₄⟩ := h
    have hc₁ : s₁.subagents = s.pauseRestarted.subagents :=
      foldlM_frame (p := .subagents) (fun _ _ _ h => quarantine_frame h (by decide)) h₁
    have hc₃ : s₃.subagents = s₂.subagents :=
      foldlM_frame (p := .subagents) (fun _ _ _ h => loseTurn_frame h (by decide)) h₃
    have hc₄ : s'.subagents = s₃.subagents :=
      foldlM_frame (p := .subagents) (fun _ _ _ h => interrupt_frame h (by decide)) h₄
    have hsame : s₁.subagents = s.subagents := hc₁
    rw [hc₄, hc₃, foldlM_restartReports _ h₂, restartReports_congr _ hsame,
      run_recorded_congr hsame, hsame]
    rfl
  | _ => exact apply_children h (by simp) (by simp) (by simp)

/-- No report of an unknown fate reaches a child whose end is confirmed. -/
def SparesEnd (s : Store) (r : ChildReport) : Prop :=
  ∀ task ∈ s.subagentFor r.1 r.2.1, task.status.confirmed → r.2.1.status ≠ some .unknown

instance : DecidableRel SparesEnd := fun s r => by
  unfold SparesEnd
  infer_instance

/-- The same for every report of an operation. -/
def SparesEnds (s : Store) (o : StoreOp × ℕ) : Prop :=
  Runs.Throughout recorded SparesEnd s (s.reports o)

instance : DecidableRel SparesEnds := fun s o => by
  unfold SparesEnds
  infer_instance

/-- The child has a row, and its rows say that it ended. -/
structure Ended (key : String × String) (s : Store) : Prop where
  known : ∃ row ∈ s.subagents, row.key = key
  confirmed : ∀ row ∈ s.subagents, row.key = key → row.task.status.confirmed

/-- An update is merged into a row it names, or no row is named. -/
theorem subagentFor_cases (s : Store) (id : String) (u : SubagentUpdate) :
    (s.subagentFor id u = none ∧ ∀ row ∈ s.subagents, ¬names id u row) ∨
      ∃ row ∈ s.subagents, names id u row ∧ s.subagentFor id u = some row.task := by
  rcases hfor : s.subagentFor id u with _ | task
  · refine .inl ⟨rfl, ?_⟩
    rw [subagentFor, Option.map_eq_none_iff, List.head?_eq_none_iff] at hfor
    have hlen := congrArg List.length hfor
    rw [List.length_insertionSort, List.length_nil] at hlen
    exact List.filter_eq_nil_iff.1 (List.length_eq_zero_iff.1 hlen)
  · rw [subagentFor, Option.map_eq_some_iff] at hfor
    obtain ⟨row, hhead, rfl⟩ := hfor
    have hmem := (List.mem_insertionSort _).1 (List.mem_of_mem_head? hhead)
    obtain ⟨hrow, hname⟩ := List.mem_filter.1 hmem
    exact .inr ⟨row, hrow, hname, rfl⟩

theorem keys_upsert {row : SubagentRow} {rows : List SubagentRow} {key : String × String}
    (h : ∃ r ∈ rows, r.key = key) : ∃ r ∈ upsert row rows, r.key = key := by
  obtain ⟨r, hr, rfl⟩ := h
  unfold upsert
  split
  · refine ⟨_, mem_updateWhere.2 ⟨r, hr, rfl⟩, ?_⟩
    split
    · rename_i hkey
      simp only [Bool.and_eq_true, decide_eq_true_eq] at hkey
      exact (Prod.ext hkey.1 hkey.2).symm
    · rfl
  · exact ⟨r, List.mem_append_left _ hr, rfl⟩

/-- The step lemma: one report. -/
theorem Ended.recorded {key : String × String} (h : Ended key s) {r : ChildReport}
    (hr : s.SparesEnd r) : Ended key (s.recorded r) := by
  obtain ⟨id, u, now⟩ := r
  refine ⟨keys_upsert h.known, fun row hrow hkey => ?_⟩
  rcases mem_upsert hrow with rfl | hrow
  · rcases s.subagentFor_cases id u with ⟨hfor, hnone⟩ | ⟨old, hold, hname, hfor⟩
    · -- a child without a row is not one that has a row
      obtain ⟨old, hold, holdkey⟩ := h.known
      simp only [SubagentRow.key, hfor, Option.getD_none, Subagent.merge_id,
        Subagent.created] at hkey holdkey
      obtain ⟨hid, htask⟩ := Prod.mk.inj (holdkey.trans hkey.symm)
      exact absurd (names_iff.2 ⟨hid, .inl htask⟩) (hnone old hold)
    · simp only [SubagentRow.key, hfor, Option.getD_some, Subagent.merge_id] at hkey ⊢
      have holdkey : old.key = key := by rw [← hkey, ← (names_iff.1 hname).1]; rfl
      have hend := h.confirmed old hold holdkey
      exact Subagent.merge_confirmed hend (hr old.task hfor hend)
  · exact h.confirmed row hrow hkey

theorem Ended.step {key : String × String} (h : Ended key s) {o : StoreOp × ℕ}
    (ho : s.SparesEnds o) : Ended key (s.step o) := by
  refine Runs.attempt_keeps (fun s' hs' => ?_) h
  have hrun : Ended key (Runs.run Store.recorded s (s.reports o)) :=
    Runs.throughout_keeps (P := Ended key) (fun _ _ h hr => h.recorded hr) h ho
  have hc := apply_reports hs'
  exact ⟨hc ▸ hrun.known, hc ▸ hrun.confirmed⟩

theorem recorded_keyed (h : Keyed SubagentRow.key s.subagents) (r : ChildReport) :
    Keyed SubagentRow.key (s.recorded r).subagents := by
  obtain ⟨id, u, now⟩ := r
  simp only [Store.recorded, recordSubagent, upsert]
  split
  · refine h.updateWhere fun q hq => ?_
    simp only [Bool.and_eq_true, decide_eq_true_eq] at hq
    exact (Prod.ext hq.1 hq.2).symm
  · rename_i hnew
    refine h.append fun q hq hkey => hnew (List.any_eq_true.2 ⟨q, hq, ?_⟩)
    obtain ⟨hid, htask⟩ := Prod.mk.inj hkey
    simp [hid, htask]

theorem after_keyed (projects : List Project) (ops : List (StoreOp × ℕ)) :
    Keyed SubagentRow.key ((Store.empty projects).after ops).subagents := by
  refine Runs.run_keeps (P := fun s : Store => Keyed SubagentRow.key s.subagents) ?_
    (fun s o h => ?_) ops
  · exact List.nodup_nil
  · refine Runs.attempt_keeps (P := fun s : Store => Keyed SubagentRow.key s.subagents) (fun s' hs' => ?_) h
    rw [apply_reports hs']
    exact Runs.run_keeps (P := fun s : Store => Keyed SubagentRow.key s.subagents) h
      (fun _ r h => recorded_keyed h r) _

/-- Once a child's row says that it completed, failed or was stopped, no later row of the child is
active. -/
def EndsAreFinal (s : Store) (ops : List (StoreOp × ℕ)) : Prop :=
  ∀ ahead later, ahead ++ later <+: ops → ∀ row ∈ (s.after ahead).subagents,
    row.task.status.confirmed → ∀ row' ∈ (s.after (ahead ++ later)).subagents,
      row'.key = row.key → row'.task.status.active = false

def reported (id : String) (tool : Option String) (status : SubagentStatus) : AgentEvent where
  event := .subagent { id, toolUseId := tool, status := some status }

/-- Two rows have one native id, and the child touched last completes. -/
def completedRun : List (StoreOp × ℕ) :=
  crossing ++ [(.event "s" (reported "a" (some "t") .completed), 4)]

/-- The restart reports the other row as unknown, under the native id of both; then progress comes. -/
def revival : List (StoreOp × ℕ) := [(.reopen, 5), (.event "s" (reported "a" (some "t") .running), 6)]

end Store

end LatteWork
