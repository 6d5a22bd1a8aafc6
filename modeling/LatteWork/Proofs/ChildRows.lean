import LatteWork.Proofs.Linked

/-!
# One row for each child

An update finds its child's row by row id, native id or tool use id. As long as no update means two
rows at once, the rows of a session stay apart: a row's own keys find that row only, so every update
reaches the child it names and `end_subagents` reaches them all.
-/

namespace LatteWork

open Fallible Table

namespace SubagentRow

/-- The primary key of `subagents`. -/
def key (row : SubagentRow) : String × String := (row.sessionId, row.task.id)

/-- An update that says what the row's child is called, with a status. -/
def renamed (row : SubagentRow) (status : SubagentStatus) : SubagentUpdate where
  id := row.task.nativeId
  toolUseId := row.task.toolUseId
  status := some status

theorem names_iff {id : String} {u : SubagentUpdate} {row : SubagentRow} :
    names id u row = true ↔ row.sessionId = id ∧ (row.task.id = u.id ∨ row.task.nativeId = u.id ∨
      row.task.toolUseId.isSome ∧ row.task.toolUseId = u.toolUseId) := by
  simp [names, or_assoc]

end SubagentRow

namespace Subagent

variable {task : Subagent} {u : SubagentUpdate} {now : ℕ}

@[simp]
theorem merge_id : (task.merge u now).id = task.id := by
  rcases h : u.status <;> simp [merge, mergeStatus, h]

@[simp]
theorem merge_nativeId : (task.merge u now).nativeId = u.id := by
  rcases h : u.status <;> simp [merge, mergeStatus, h]

@[simp]
theorem merge_toolUseId :
    (task.merge u now).toolUseId = (u.toolUseId <|> task.toolUseId) := by
  rcases h : u.status <;> simp [merge, mergeStatus, h]

/-- A status that is not active always counts. -/
theorem merge_status {status : SubagentStatus} (h : u.status = some status)
    (hs : status.active = false) : (task.merge u now).status = status := by
  simp [merge, mergeStatus, h, hs]

end Subagent

namespace Store

open SubagentRow

variable {s s' : Store} {id : String} {now : ℕ}

/-- The keys of a row find that row only. -/
structure ChildrenApart (s : Store) : Prop where
  keyed : Keyed SubagentRow.key s.subagents
  apart : ∀ a ∈ s.subagents, ∀ b ∈ s.subagents, ∀ status,
    names b.sessionId (b.renamed status) a → a = b

/-- At most one row is meant by the update an operation records. -/
def namesOne (s : Store) (o : StoreOp × ℕ) : Bool :=
  match o.1 with
  | .event id e =>
    match e.event with
    | .subagent u => decide ((s.subagents.filter (names id u)).length ≤ 1)
    | _ => true
  | _ => true

/-- A child that had no row. -/
theorem recordSubagent_new {u : SubagentUpdate} (h : s.subagents.filter (names id u) = []) :
    (s.recordSubagent id u now).1.subagents =
      s.subagents ++ [{ sessionId := id, task := (Subagent.created u now).merge u now }] := by
  have hnone : (s.subagents.any fun r => r.sessionId = id && r.task.id = u.id) = false := by
    rw [List.any_eq_false]
    intro r hr hkey
    have hname := List.filter_eq_nil_iff.1 h r hr
    simp only [Bool.and_eq_true, decide_eq_true_eq] at hkey
    exact hname (names_iff.2 ⟨hkey.1, .inl hkey.2⟩)
  simp only [recordSubagent, subagentFor, h, upsert, Subagent.merge_id]
  simp [Subagent.created, hnone]

/-- A child that has one row. -/
theorem recordSubagent_one {u : SubagentUpdate} {row : SubagentRow}
    (h : s.subagents.filter (names id u) = [row]) :
    (s.recordSubagent id u now).1.subagents = updateWhere (fun r => r.key = row.key)
      (fun _ => { row with task := row.task.merge u now }) s.subagents := by
  have hmem : row ∈ s.subagents.filter (names id u) := by simp [h]
  obtain ⟨hrow, hname⟩ := List.mem_filter.1 hmem
  obtain ⟨rfl, _⟩ := names_iff.1 hname
  have hany : (s.subagents.any fun r => r.sessionId = row.sessionId && r.task.id = row.task.id) =
      true := List.any_eq_true.2 ⟨row, hrow, by simp⟩
  have hfor : s.subagentFor row.sessionId u = some row.task := by
    rw [subagentFor, h]
    rfl
  simp only [recordSubagent, hfor, Option.getD_some, upsert, Subagent.merge_id, hany, if_true]
  congr 1
  funext r
  simp [SubagentRow.key]

theorem filter_le_one {α : Type} {p : α → Bool} {l : List α} (h : (l.filter p).length ≤ 1) :
    l.filter p = [] ∨ ∃ a, l.filter p = [a] := by
  rcases hl : l.filter p with _ | ⟨a, _ | ⟨b, m⟩⟩
  · exact .inl rfl
  · exact .inr ⟨a, rfl⟩
  · rw [hl] at h
    simp at h

/-- An update that means one row at most keeps the rows apart. -/
theorem ChildrenApart.record (h : s.ChildrenApart) {u : SubagentUpdate}
    (hone : (s.subagents.filter (names id u)).length ≤ 1)
    (hs : s'.subagents = (s.recordSubagent id u now).1.subagents) : s'.ChildrenApart := by
  rcases filter_le_one hone with hnil | ⟨row, hrow⟩
  · rw [recordSubagent_new hnil] at hs
    have hnot : ∀ a ∈ s.subagents, ¬names id u a = true := List.filter_eq_nil_iff.1 hnil
    refine ⟨?_, fun a ha b hb status hname => ?_⟩
    · rw [hs]
      refine h.keyed.append fun a ha heq => hnot a ha ?_
      obtain ⟨hid, htask⟩ := Prod.mk.inj heq
      exact names_iff.2 ⟨hid, .inl (by simpa [Subagent.created] using htask)⟩
    rw [hs] at ha hb
    rcases List.mem_append.1 ha with ha | ha <;> rcases List.mem_append.1 hb with hb | hb
    · exact h.apart a ha b hb status hname
    · obtain rfl := List.mem_singleton.1 hb
      refine absurd ?_ (hnot a ha)
      simpa [names_iff, renamed, Subagent.created] using hname
    · obtain rfl := List.mem_singleton.1 ha
      refine absurd ?_ (hnot b hb)
      rw [names_iff] at hname ⊢
      simp only [Subagent.merge_id, Subagent.merge_nativeId, Subagent.merge_toolUseId,
        Subagent.created, renamed] at hname
      grind
    · rw [List.mem_singleton.1 ha, List.mem_singleton.1 hb]
  · rw [recordSubagent_one hrow] at hs
    have hmem : row ∈ s.subagents.filter (names id u) := by simp [hrow]
    obtain ⟨hrow', hname'⟩ := List.mem_filter.1 hmem
    obtain ⟨rfl, _⟩ := names_iff.1 hname'
    have honly : ∀ a ∈ s.subagents, names row.sessionId u a → a = row := by
      intro a ha hname
      have ha' : a ∈ s.subagents.filter (names row.sessionId u) := List.mem_filter.2 ⟨ha, hname⟩
      rw [hrow] at ha'
      exact List.mem_singleton.1 ha'
    have hcases : ∀ a ∈ s'.subagents, a = { row with task := row.task.merge u now } ∨
        a ∈ s.subagents ∧ a ≠ row := by
      intro a ha
      rw [hs] at ha
      obtain ⟨c, hc, rfl⟩ := mem_updateWhere.1 ha
      by_cases hk : c.key = row.key
      · exact .inl (if_pos (decide_eq_true hk))
      · rw [if_neg (by simpa using hk)]
        exact .inr ⟨hc, fun he => hk (congrArg _ he)⟩
    refine ⟨?_, fun a ha b hb status hname => ?_⟩
    · rw [hs]
      refine h.keyed.updateWhere fun r hr => ?_
      rw [of_decide_eq_true hr]
      exact congrArg (Prod.mk _) Subagent.merge_id
    rcases hcases a ha with rfl | ⟨ha, hne⟩ <;> rcases hcases b hb with rfl | ⟨hb, hneb⟩
    · rfl
    -- the updated row and another: its new keys are the update's, its old ones were its own
    · exfalso
      apply hneb
      by_cases hold : names b.sessionId (b.renamed status) row
      · exact (h.apart row hrow' b hb status hold).symm
      refine honly b hb ?_
      rw [names_iff] at hname hold ⊢
      simp only [Subagent.merge_id, Subagent.merge_nativeId, Subagent.merge_toolUseId,
        renamed] at hname hold
      rcases hu : u.toolUseId with _ | t <;> rw [hu] at hname <;> grind
    · exfalso
      apply hne
      by_cases hold : names row.sessionId (row.renamed status) a
      · exact h.apart a ha row hrow' status hold
      refine honly a ha ?_
      rw [names_iff] at hname hold ⊢
      simp only [Subagent.merge_nativeId, Subagent.merge_toolUseId, renamed] at hname hold
      rcases hu : u.toolUseId with _ | t <;> rw [hu] at hname <;> grind
    · exact h.apart a ha b hb status hname

theorem ChildrenApart.of_eq (h : s.ChildrenApart) (hc : s'.subagents = s.subagents) :
    s'.ChildrenApart := by
  obtain ⟨hk, ha⟩ := h
  exact ⟨by rwa [hc], by rwa [hc]⟩

theorem eq_singleton {α : Type} {l : List α} {a : α} (hn : l.Nodup) (ha : a ∈ l)
    (h : ∀ b ∈ l, b = a) : l = [a] := by
  rcases l with _ | ⟨b, _ | ⟨c, m⟩⟩
  · cases ha
  · rw [h b List.mem_cons_self]
  · rw [h b List.mem_cons_self, h c (by simp)] at hn
    exact absurd List.mem_cons_self (List.nodup_cons.1 hn).1

/-- A row's own keys mean that row. -/
theorem ChildrenApart.own (h : s.ChildrenApart) {row : SubagentRow} (hrow : row ∈ s.subagents)
    (status : SubagentStatus) :
    s.subagents.filter (names row.sessionId (row.renamed status)) = [row] := by
  refine eq_singleton ((List.Nodup.of_map _ h.keyed).filter _) ?_ fun a ha => ?_
  · exact List.mem_filter.2 ⟨hrow, names_iff.2 ⟨rfl, .inr (.inl rfl)⟩⟩
  · obtain ⟨ha, hname⟩ := List.mem_filter.1 ha
    exact h.apart a ha row hrow status hname

/-- The report of one child: its own row takes the status, the others stay. -/
theorem event_renamed (h : s.ChildrenApart) {row : SubagentRow} (hrow : row ∈ s.subagents)
    {status : SubagentStatus}
    (he : s.event row.sessionId (.subagent (row.renamed status)) now = .ok s') :
    s'.ChildrenApart ∧ s'.subagents = updateWhere (fun r => r.key = row.key)
      (fun _ => { row with task := row.task.merge (row.renamed status) now }) s.subagents := by
  obtain ⟨_, hc⟩ := event_children he
  have hown := h.own hrow status
  rw [childrenAfter] at hc
  refine ⟨h.record (by rw [hown]; rfl) hc, ?_⟩
  rw [hc, recordSubagent_one hown]

theorem event_known (id : String) (now : ℕ) {e : EventKind} (he : ∀ c, e ≠ .turnChanges c) (hk : s.Known id) :
    ∃ s', s.event id e now = .ok s' := by
  have href := referenceSession_of_mem hk
  unfold event
  split
  · exact absurd rfl (he _)
  · exact ⟨_, by rw [href]; rfl⟩
  · exact ⟨_, by rw [href]; rfl⟩

/-- The loop of `end_subagents`: the rows still to be reported are in the table as they were read,
and hold all that is active. -/
theorem endLoop {status : SubagentStatus} :
    ∀ (l : List SubagentRow) {s : Store}, s.ChildrenApart → s.Linked →
      (∀ row ∈ l, row ∈ s.subagents ∧ row.sessionId = id) → Keyed SubagentRow.key l →
      (status.active = false →
        ∀ row ∈ s.subagents, row.sessionId = id → row.task.status.active → row ∈ l) →
      ∃ s', l.foldlM (fun s row => s.event id (.subagent
          { id := row.task.nativeId, toolUseId := row.task.toolUseId, status := some status }) now) s =
            .ok s' ∧ s'.ChildrenApart ∧ s'.Linked ∧
        (status.active = false →
          ∀ row ∈ s'.subagents, row.sessionId = id → row.task.status.active = false) ∧
        ∀ row, row.sessionId ≠ id → (row ∈ s'.subagents ↔ row ∈ s.subagents)
  | [], s, h, hl, _, _, hall => by
    refine ⟨s, rfl, h, hl, fun hst row hrow hid => ?_, fun _ _ => Iff.rfl⟩
    by_contra hact
    exact absurd (hall hst row hrow hid (by simpa using hact)) List.not_mem_nil
  | row :: l, s, h, hl, hin, hk, hall => by
    obtain ⟨hrow, hrid⟩ := hin row List.mem_cons_self
    obtain ⟨t, ht⟩ := event_known row.sessionId now (by exact nofun)
      (e := .subagent (row.renamed status)) (hl.children row hrow)
    obtain ⟨hapart, hsub⟩ := event_renamed h hrow ht
    rw [hrid] at ht
    obtain ⟨hkrow, hkl⟩ := List.nodup_cons.1 hk
    have hkept : ∀ r ∈ s.subagents, r.key ≠ row.key → r ∈ t.subagents := by
      intro r hr hne
      rw [hsub]
      exact mem_updateWhere.2 ⟨r, hr, if_neg (by simpa using hne)⟩
    have hnew : ∀ r ∈ t.subagents, r.key = row.key ∧
        r = { row with task := row.task.merge (row.renamed status) now } ∨
          r ∈ s.subagents ∧ r.key ≠ row.key := by
      intro r hr
      rw [hsub] at hr
      obtain ⟨c, hc, rfl⟩ := mem_updateWhere.1 hr
      by_cases hck : c.key = row.key
      · rw [if_pos (decide_eq_true hck)]
        exact .inl ⟨congrArg (Prod.mk _) Subagent.merge_id, rfl⟩
      · rw [if_neg (by simpa using hck)]
        exact .inr ⟨hc, hck⟩
    obtain ⟨s', hs', hap, hli, hdone, hother⟩ := endLoop l hapart (event_linked hl ht)
      (fun r hr => ⟨hkept r (hin r (List.mem_cons_of_mem _ hr)).1 fun he =>
          hkrow (List.mem_map.2 ⟨r, hr, he⟩), (hin r (List.mem_cons_of_mem _ hr)).2⟩) hkl
      (fun hst r hr hid hact => by
        rcases hnew r hr with ⟨_, rfl⟩ | ⟨hr, hne⟩
        · rw [Subagent.merge_status rfl hst, hst] at hact
          cases hact
        · rcases List.mem_cons.1 (hall hst r hr hid hact) with rfl | hr
          · exact absurd rfl hne
          · exact hr)
    refine ⟨s', ?_, hap, hli, hdone, fun r hr => ?_⟩
    · rw [List.foldlM_cons]
      simp only [renamed] at ht
      rw [ht]
      exact hs'
    · rw [hother r hr]
      constructor
      · intro hrt
        rcases hnew r hrt with ⟨_, rfl⟩ | ⟨hrs, _⟩
        · exact absurd hrid hr
        · exact hrs
      · intro hrs
        exact hkept r hrs fun he => hr ((congrArg Prod.fst he).trans hrid)

/-- `end_subagents` reaches every active child of the session, and no other session's. -/
theorem endSubagents_all (h : s.ChildrenApart) (hl : s.Linked) (id : String)
    (status : SubagentStatus) (now : ℕ) :
    ∃ s', s.endSubagents id status now = .ok s' ∧ s'.ChildrenApart ∧ s'.Linked ∧
      (status.active = false →
        ∀ row ∈ s'.subagents, row.sessionId = id → row.task.status.active = false) ∧
      ∀ row, row.sessionId ≠ id → (row ∈ s'.subagents ↔ row ∈ s.subagents) := by
  refine endLoop _ h hl (fun row hrow => ?_) ?_ fun _ row hrow hid hact => ?_
  · obtain ⟨hrow, hp⟩ := List.mem_filter.1 hrow
    simp only [Bool.and_eq_true, decide_eq_true_eq] at hp
    exact ⟨hrow, hp.1⟩
  · exact h.keyed.sublist (List.filter_sublist.map _)
  · exact List.mem_filter.2 ⟨hrow, by simp [hid, hact]⟩

/-- Most operations do not touch the children. -/
theorem apply_children {o : StoreOp × ℕ} (h : s.apply o = .ok s') (he : ∀ id e, o.1 ≠ .event id e)
    (hend : ∀ id status, o.1 ≠ .endSubagents id status) (hr : o.1 ≠ .reopen) :
    s'.subagents = s.subagents := by
  refine apply_frame (p := .subagents) h ?_
  obtain ⟨op, now⟩ := o
  cases op with
  | event id e => exact absurd rfl (he id e)
  | endSubagents id status => exact absurd rfl (hend id status)
  | reopen => exact absurd rfl hr
  | _ => simp [StoreOp.writes]

/-- The loop of `open` over the sessions with active children. -/
theorem endSessions (now : ℕ) : ∀ (ids : List String) {s : Store}, s.ChildrenApart → s.Linked →
    (∀ row ∈ s.subagents, row.task.status.active → row.sessionId ∈ ids) →
    ∃ s', ids.foldlM (fun s id => s.endSubagents id .unknown now) s = .ok s' ∧ s'.ChildrenApart ∧
      ∀ row ∈ s'.subagents, row.task.status.active = false
  | [], s, h, _, hall => by
    refine ⟨s, rfl, h, fun row hrow => ?_⟩
    by_contra hact
    exact absurd (hall row hrow (by simpa using hact)) List.not_mem_nil
  | id :: ids, s, h, hl, hall => by
    obtain ⟨t, ht, hap, hli, hdone, hother⟩ := endSubagents_all h hl id .unknown now
    obtain ⟨s', hs', hap', hdone'⟩ := endSessions now ids hap hli fun row hrow hact => by
      by_cases hid : row.sessionId = id
      · rw [hdone rfl row hrow hid] at hact
        cases hact
      · rcases List.mem_cons.1 (hall row ((hother row hid).1 hrow) hact) with he | he
        · exact absurd he hid
        · exact he
    refine ⟨s', ?_, hap', hdone'⟩
    rw [List.foldlM_cons, ht]
    exact hs'

/-- Opening the database ends every child. -/
theorem reopen_children (h : s.ChildrenApart) (hl : s.Linked) (hr : s.reopen now = .ok s') :
    s'.ChildrenApart ∧ ∀ row ∈ s'.subagents, row.task.status.active = false := by
  simp only [reopen, bind_eq_ok] at hr
  obtain ⟨s₁, h₁, s₂, h₂, s₃, h₃, h₄⟩ := hr
  have hc₁ : s₁.subagents = s.pauseRestarted.subagents :=
    foldlM_frame (p := .subagents) (fun _ _ _ h => quarantine_frame h (by decide)) h₁
  have l₁ : s₁.Linked := by
    have l₀ : s.pauseRestarted.Linked := hl.kept (.of_eq rfl rfl) (same_queue rfl) rfl rfl
    refine foldlM_keeps (P := Linked) _ (fun t i _ u ht hs => ?_) _ _ l₀ h₁
    simp only [quarantine, bind_eq_ok] at hs
    obtain ⟨v, hv, hs⟩ := hs
    exact pauseQueue_linked (uncertainForwarded_linked ht hv) hs
  obtain ⟨t, ht, hap, hdone⟩ := endSessions now _ (ChildrenApart.of_eq h hc₁) l₁ fun row hrow hact =>
    List.mem_dedup.2 (List.mem_map.2 ⟨row, List.mem_filter.2 ⟨hrow, by simpa using hact⟩, rfl⟩)
  obtain rfl : s₂ = t := Except.ok.inj (h₂.symm.trans ht)
  have hc₃ : s₃.subagents = s₂.subagents :=
    foldlM_frame (p := .subagents) (fun _ _ _ h => loseTurn_frame h (by decide)) h₃
  have hc₄ : s'.subagents = s₃.subagents :=
    foldlM_frame (p := .subagents) (fun _ _ _ h => interrupt_frame h (by decide)) h₄
  rw [hc₃] at hc₄
  exact ⟨hap.of_eq hc₄, hc₄ ▸ hdone⟩

theorem apply_apart {o : StoreOp × ℕ} (h : s.ChildrenApart) (hl : s.Linked) (hone : s.namesOne o = true)
    (ho : s.apply o = .ok s') : s'.ChildrenApart := by
  obtain ⟨op, now⟩ := o
  by_cases he : ∃ id e, op = .event id e
  · obtain ⟨id, e, rfl⟩ := he
    obtain ⟨_, hc⟩ := event_children ho
    unfold childrenAfter at hc
    split at hc
    · rename_i u hu
      simp only [namesOne, hu, decide_eq_true_eq] at hone
      exact h.record hone hc
    · exact h.of_eq hc
  by_cases hend : ∃ id status, op = .endSubagents id status
  · obtain ⟨id, status, rfl⟩ := hend
    obtain ⟨t, ht, hap, _⟩ := endSubagents_all h hl id status now
    obtain rfl : t = s' := Except.ok.inj (ht.symm.trans ho)
    exact hap
  by_cases hr : op = .reopen
  · subst hr
    exact (reopen_children h hl ho).1
  · exact h.of_eq (apply_children ho (fun id e heq => he ⟨id, e, heq⟩)
      (fun id status heq => hend ⟨id, status, heq⟩) hr)

/-- An update with a tool use id goes to the row that owns either of its keys, which owns both
afterwards. -/
theorem event_owner (h : s.ChildrenApart) {u : SubagentUpdate} {tool : String}
    (hu : u.toolUseId = some tool) (hone : (s.subagents.filter (names id u)).length ≤ 1)
    (he : s.event id (.subagent u) now = .ok s') :
    ∃ row ∈ s'.subagents, row.sessionId = id ∧ row.task.nativeId = u.id ∧
      row.task.toolUseId = some tool ∧
      (∀ a ∈ s.subagents, a.sessionId = id → a.task.nativeId = u.id ∨ a.task.toolUseId = some tool →
        a.key = row.key) ∧
      ∀ b ∈ s'.subagents, b.sessionId = id → b.task.nativeId = u.id ∨ b.task.toolUseId = some tool →
        b = row := by
  obtain ⟨_, hc⟩ := event_children he
  have hap : s'.ChildrenApart := h.record hone hc
  have hname : ∀ a : SubagentRow, a.sessionId = id →
      a.task.nativeId = u.id ∨ a.task.toolUseId = some tool → names id u a := by
    intro a hid ha
    refine names_iff.2 ⟨hid, ha.elim (fun hn => .inr (.inl hn)) fun ht => .inr (.inr ?_)⟩
    exact ⟨by rw [ht]; rfl, ht.trans hu.symm⟩
  have hrow : ∃ row ∈ s'.subagents, row.sessionId = id ∧ row.task.nativeId = u.id ∧
      row.task.toolUseId = some tool ∧
      ∀ a ∈ s.subagents, names id u a → a.key = row.key := by
    rw [hc, childrenAfter]
    rcases filter_le_one hone with hnil | ⟨row, hrow⟩
    · rw [recordSubagent_new hnil]
      refine ⟨_, List.mem_append_right _ (List.mem_singleton.2 rfl), rfl, by simp, by simp [hu],
        fun a ha hn => ?_⟩
      exact absurd hn (List.filter_eq_nil_iff.1 hnil a ha)
    · rw [recordSubagent_one hrow]
      have hmem : row ∈ s.subagents.filter (names id u) := by simp [hrow]
      obtain ⟨hrow', hname'⟩ := List.mem_filter.1 hmem
      refine ⟨_, mem_updateWhere.2 ⟨row, hrow', if_pos (decide_eq_true rfl)⟩,
        (names_iff.1 hname').1, by simp, by simp [hu], fun a ha hn => ?_⟩
      have ha' : a ∈ s.subagents.filter (names id u) := List.mem_filter.2 ⟨ha, hn⟩
      rw [hrow, List.mem_singleton] at ha'
      rw [ha']
      exact congrArg (Prod.mk _) Subagent.merge_id.symm
  obtain ⟨row, hmem, hid, hnat, htool, hown⟩ := hrow
  refine ⟨row, hmem, hid, hnat, htool, fun a ha haid hk => hown a ha (hname a haid hk), ?_⟩
  intro b hb hbid hk
  -- the rows are apart after the update too, and the keys of `row` are the update's
  refine hap.apart b hb row hmem .unknown (names_iff.2 ⟨hbid.trans hid.symm, ?_⟩)
  rcases hk with hk | hk
  · exact .inr (.inl (hk.trans hnat.symm))
  · exact .inr (.inr ⟨by rw [hk]; rfl, hk.trans htool.symm⟩)

/-- Every update of a run means at most one row of its session. -/
def NamesOneThroughout (s : Store) (ops : List (StoreOp × ℕ)) : Prop :=
  Runs.Throughout step (fun s o => s.namesOne o = true) s ops

instance (s : Store) (ops : List (StoreOp × ℕ)) : Decidable (s.NamesOneThroughout ops) :=
  inferInstanceAs (Decidable (Runs.Throughout _ _ _ _))

theorem after_apart (projects : List Project) {ops : List (StoreOp × ℕ)}
    (hops : (Store.empty projects).NamesOneThroughout ops) :
    ((Store.empty projects).after ops).ChildrenApart := by
  refine (Runs.throughout_keeps
    (P := fun s : Store => s.QueueLedger ∧ s.Linked ∧ s.ChildrenApart)
    (fun s o ⟨hl, hk, h⟩ hone => ⟨step_ledger hl, ?_, ?_⟩)
    ⟨empty_ledger projects, empty_linked projects, List.nodup_nil, by simp [empty]⟩ hops).2.2
  · exact Runs.attempt_keeps (fun _ ho => apply_linked hl hk ho) hk
  · exact Runs.attempt_keeps (fun _ ho => apply_apart h hk hone ho) h

/-- Children and their rows, over every run whose updates mean one row each. -/
theorem children_one_row (projects : List Project) (ops : List (StoreOp × ℕ))
    (hops : (Store.empty projects).NamesOneThroughout ops) :
    let s := (Store.empty projects).after ops
    (s.subagents.Nodup ∧ ∀ a ∈ s.subagents, ∀ b ∈ s.subagents, a.sessionId = b.sessionId → a ≠ b →
      a.task.nativeId ≠ b.task.nativeId ∧
        (a.task.toolUseId.isSome → a.task.toolUseId ≠ b.task.toolUseId)) ∧
    (∀ id u tool now s', u.toolUseId = some tool →
      (s.subagents.filter (names id u)).length ≤ 1 → s.event id (.subagent u) now = .ok s' →
      ∃ row ∈ s'.subagents, row.sessionId = id ∧ row.task.nativeId = u.id ∧
        row.task.toolUseId = some tool ∧
        (∀ a ∈ s.subagents, a.sessionId = id →
          a.task.nativeId = u.id ∨ a.task.toolUseId = some tool → a.key = row.key) ∧
        ∀ b ∈ s'.subagents, b.sessionId = id →
          b.task.nativeId = u.id ∨ b.task.toolUseId = some tool → b = row) ∧
    ∀ id status now, status.active = false → ∃ s', s.endSubagents id status now = .ok s' ∧
      ∀ row ∈ s'.subagents, row.sessionId = id → row.task.status.active = false := by
  have h := after_apart projects hops
  refine ⟨⟨List.Nodup.of_map _ h.keyed, fun a ha b hb hid hne => ⟨fun he => ?_, fun hs he => ?_⟩⟩,
    fun id u tool now s' hu hone he => event_owner h hu hone he, fun id status now hst => ?_⟩
  · exact hne (h.apart a ha b hb .unknown (names_iff.2 ⟨hid, .inr (.inl he)⟩))
  · exact hne (h.apart a ha b hb .unknown (names_iff.2 ⟨hid, .inr (.inr ⟨hs, he⟩)⟩))
  · obtain ⟨s', hs', _, _, hdone, _⟩ := endSubagents_all h (after_linked projects ops) id status now
    exact ⟨s', hs', hdone hst⟩

def oneProject : List Project := [{ id := "p", name := "p", path := "/p" }]

def runningChild (id : String) (tool : Option String) : AgentEvent where
  event := .subagent { id, toolUseId := tool, status := some .running }

/-- A task is announced by its id, and its tool call by a provisional id. -/
def twoChildren : List (StoreOp × ℕ) :=
  [(.createSession "s" "p" "claude", 0), (.event "s" (runningChild "a" none), 1),
    (.event "s" (runningChild "tool:t" (some "t")), 2)]

/-- An update then names both rows. -/
def crossing : List (StoreOp × ℕ) :=
  twoChildren ++ [(.event "s" (runningChild "a" (some "t")), 3)]

theorem children_one_row_two :
    ∃ s', ((Store.empty oneProject).after twoChildren).endSubagents "s" .stopped 3 = .ok s' ∧
      ∀ row ∈ s'.subagents, row.sessionId = "s" → row.task.status.active = false :=
  (children_one_row oneProject twoChildren (by decide +kernel)).2.2 "s" .stopped 3 rfl

/-- Both rows have the native id then, the report of either reaches the one touched last, and the
other stays active. -/
theorem crossing_shares :
    let s := (Store.empty oneProject).after crossing
    (∃ a ∈ s.subagents, ∃ b ∈ s.subagents, a ≠ b ∧ a.sessionId = b.sessionId ∧
      a.task.nativeId = b.task.nativeId) ∧
    (match s.endSubagents "s" .stopped 4 with
      | .ok s' => s'.subagents.any fun row => row.sessionId = "s" && row.task.status.active
      | .error _ => false) = true := by
  decide +kernel

end Store

end LatteWork
