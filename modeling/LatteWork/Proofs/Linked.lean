import LatteWork.Proofs.HistoryPages
import LatteWork.Proofs.RunningTurns

/-!
# Foreign keys

Every row names a session that has a row, and a turn names a request that was admitted. Sessions and
requests are never deleted, so the links hold over every run.
-/

namespace LatteWork

open Fallible Table

namespace Store

/-- The session has a row. -/
def Known (s : Store) (id : String) : Prop := ∃ x ∈ s.sessions, x.id = id

/-- The links between the tables. -/
structure Linked (s : Store) : Prop where
  queue : ∀ row ∈ s.messageQueue, s.Known row.sessionId
  children : ∀ row ∈ s.subagents, s.Known row.sessionId
  turns : ∀ row ∈ s.turnChanges, s.Known row.sessionId ∧ ∃ r ∈ s.requests, r.id = row.requestId

/-- No session and no request is lost. -/
structure Extends (s t : Store) : Prop where
  known : ∀ id, s.Known id → t.Known id
  requests : s.requests ⊆ t.requests

section

variable {s s' : Store} {id : String} {now : ℕ}

theorem known_of_session {x : Session} (h : s.session id = .ok x) : s.Known id :=
  ⟨x, session_mem h⟩

theorem known_of_ids (h : s'.sessions.map (·.id) = s.sessions.map (·.id)) (hk : s.Known id) :
    s'.Known id := by
  have hid : id ∈ s.sessions.map (·.id) := List.mem_map.2 hk
  rw [← h] at hid
  exact List.mem_map.1 hid

theorem Quiet.extends (h : Quiet s s') : Extends s s' := by
  refine ⟨fun _ hk => known_of_ids h.ids hk, ?_⟩
  rw [h.requests]
  exact fun _ hr => hr

theorem Extends.of_eq (hs : s'.sessions = s.sessions) (hr : s'.requests = s.requests) :
    Extends s s' := by
  refine ⟨fun id hk => by rwa [Known, hs], ?_⟩
  rw [hr]
  exact fun _ hr => hr

theorem apply_extends {o : StoreOp × ℕ} (h : s.apply o = .ok s') : Extends s s' := by
  by_cases hq : o.1.quiet = true
  · exact (apply_quiet hq h).extends
  obtain ⟨op, now⟩ := o
  cases op with
  | createSession fresh projectId agent =>
    obtain ⟨_, rfl⟩ := createSession_cases h
    exact ⟨fun id ⟨x, hx, hid⟩ => ⟨x, List.mem_append_left _ hx, hid⟩, fun _ hr => hr⟩
  | archive id archived =>
    obtain ⟨x, hx, _, rfl⟩ := archiveSession_cases h
    exact ⟨fun _ hk => known_of_ids (map_updateWhere (fun z hz => (of_decide_eq_true hz).symm) _) hk,
      fun _ hr => hr⟩
  | begin id r =>
    simp only [apply, map_eq_ok] at h
    obtain ⟨⟨t, new⟩, h, rfl⟩ := h
    obtain ⟨_, rfl, _⟩ | ⟨_, _, x, hx, _, _, rfl⟩ := beginTurn_cases h
    · exact ⟨fun _ hk => hk, fun _ hr => hr⟩
    · refine ⟨fun _ hk => ?_, fun _ hr => List.mem_append_left _ hr⟩
      exact known_of_ids (map_updateWhere (fun z hz => (of_decide_eq_true hz).symm) _) hk
  | enqueue id r =>
    obtain ⟨_, _, _, _, _, _, rfl⟩ := enqueue_cases h
    exact .of_eq rfl rfl
  | edit id requestId revision text =>
    obtain ⟨_, _, _, _, _, ⟨_, _, rfl, _⟩ | ⟨_, rfl⟩⟩ := editQueued_cases h <;> exact .of_eq rfl rfl
  | reorder id expected order =>
    obtain rfl | rfl := reorderQueue_cases h <;> exact .of_eq rfl rfl
  | take id requestId revision =>
    simp only [apply, map_eq_ok] at h
    obtain ⟨⟨t, entry⟩, h, rfl⟩ := h
    obtain ⟨_, _, _, _, _, _, _, rfl⟩ := takeQueued_cases h
    exact .of_eq rfl rfl
  | clear id =>
    obtain ⟨_, rfl⟩ := clearQueue_cases h
    exact .of_eq rfl rfl
  | markForwarded id requestId revision =>
    obtain ⟨_, _, _, _, _, _, rfl⟩ := markForwarded_cases h
    exact .of_eq rfl rfl
  | rejectForwarded id requestId reason =>
    obtain ⟨rfl, _⟩ | ⟨_, _, _, _, _, _, rfl⟩ := rejectForwarded_cases h <;> exact .of_eq rfl rfl
  | consumeForwarded id requests =>
    obtain rfl := Except.ok.inj h
    exact .of_eq rfl rfl
  | uncertainForwarded id =>
    obtain ⟨_, hr, _, hs, _⟩ := uncertainForwarded_queue h
    exact .of_eq hs hr
  | reopen =>
    have hr := reopen_cases h
    exact ⟨fun _ hk => known_of_ids hr.ids hk, fun _ hm => hr.requests ▸ hm⟩
  | _ => exact absurd rfl hq

/-- The keys of the turn records. -/
def turnKeys (s : Store) : List (String × String) :=
  s.turnChanges.map fun row => (row.sessionId, row.requestId)

theorem turnKeys_update {p : TurnRow → Bool} {f : TurnRow → TurnRow}
    (h : s'.turnChanges = updateWhere p f s.turnChanges)
    (hf : ∀ row, (f row).sessionId = row.sessionId ∧ (f row).requestId = row.requestId) :
    s'.turnKeys = s.turnKeys := by
  rw [turnKeys, h, map_updateWhere (fun row _ => ?_), turnKeys]
  rw [(hf row).1, (hf row).2]

/-- A change that adds no row. -/
theorem Linked.kept (h : s.Linked) (hx : Extends s s')
    (hq : ∀ row ∈ s'.messageQueue, ∃ a ∈ s.messageQueue, a.sessionId = row.sessionId)
    (hc : s'.subagents = s.subagents) (ht : s'.turnKeys = s.turnKeys) : s'.Linked := by
  refine ⟨fun row hrow => ?_, fun row hrow => ?_, fun row hrow => ?_⟩
  · obtain ⟨a, ha, hid⟩ := hq row hrow
    exact hid ▸ hx.known _ (h.queue a ha)
  · exact hx.known _ (h.children row (hc ▸ hrow))
  · have hkey : (row.sessionId, row.requestId) ∈ s.turnKeys := ht ▸ List.mem_map.2 ⟨row, hrow, rfl⟩
    obtain ⟨a, ha, heq⟩ := List.mem_map.1 hkey
    obtain ⟨hid, hreq⟩ := Prod.mk.inj heq
    obtain ⟨hk, r, hr, hrid⟩ := h.turns a ha
    exact ⟨hid ▸ hx.known _ hk, r, hx.requests hr, hrid.trans hreq⟩

theorem same_queue (h : s'.messageQueue = s.messageQueue) :
    ∀ row ∈ s'.messageQueue, ∃ a ∈ s.messageQueue, a.sessionId = row.sessionId :=
  fun row hrow => ⟨row, h ▸ hrow, rfl⟩

theorem moved_queue {op : StoreOp} (h : List.Forall₂ (Moves op) s.messageQueue s'.messageQueue) :
    ∀ row ∈ s'.messageQueue, ∃ a ∈ s.messageQueue, a.sessionId = row.sessionId := by
  intro row hrow
  obtain ⟨a, ha, hab⟩ := forall₂_source h hrow
  exact ⟨a, ha, hab.sessionId.symm⟩

theorem mem_upsert {row r : SubagentRow} {rows : List SubagentRow}
    (h : r ∈ SubagentRow.upsert row rows) : r = row ∨ r ∈ rows := by
  unfold SubagentRow.upsert at h
  split at h
  · obtain ⟨a, ha, rfl⟩ := mem_updateWhere.1 h
    split
    · exact .inl rfl
    · exact .inr ha
  · rcases List.mem_append.1 h with h | h
    · exact .inr h
    · exact .inl (List.mem_singleton.1 h)

theorem event_linked (h : s.Linked) {e : EventKind} (he : s.event id e now = .ok s') :
    s'.Linked := by
  obtain ⟨hk, hc⟩ := event_children he
  obtain ⟨_, rows, e', rfl, _⟩ := event_cases he
  refine ⟨h.queue, fun row hrow => ?_, h.turns⟩
  rw [hc] at hrow
  unfold childrenAfter at hrow
  split at hrow
  · rcases mem_upsert hrow with rfl | hrow
    · exact hk
    · exact h.children row hrow
  · exact h.children row hrow

theorem endSubagents_linked (h : s.Linked) {status : SubagentStatus}
    (he : s.endSubagents id status now = .ok s') : s'.Linked :=
  foldlM_keeps (P := Linked) _ (fun _ _ _ _ hl hs => event_linked hl hs) _ _ h he

theorem uncertainForwarded_linked (h : s.Linked) (hu : s.uncertainForwarded id now = .ok s') :
    s'.Linked := by
  have hc : s'.subagents = s.subagents := uncertainForwarded_children hu
  have ht : s'.turnChanges = s.turnChanges :=
    uncertainForwarded_frame (p := .turnChanges) hu (by decide)
  obtain ⟨_, hr, _, hs, _⟩ := uncertainForwarded_queue hu
  have hm : List.Forall₂ (Moves (.uncertainForwarded id)) s.messageQueue s'.messageQueue :=
    (uncertainForwarded_moves hu).1
  exact h.kept (.of_eq hs hr) (moved_queue hm) hc (by rw [turnKeys, ht, turnKeys])

theorem pauseQueue_linked (h : s.Linked) {reason : Option String}
    (hp : s.pauseQueue id reason = .ok s') : s'.Linked := by
  obtain ⟨_, rfl⟩ := pauseQueue_cases hp
  exact h.kept (.of_eq rfl rfl) (same_queue rfl) rfl rfl

theorem loseTurn_linked {turn : String × String} (h : s.Linked)
    (hl : loseTurn now s turn = .ok s') : s'.Linked := by
  simp only [loseTurn, bind_eq_ok, Except.ok.injEq] at hl
  obtain ⟨t, ht, rfl⟩ := hl
  exact (event_linked h ht).kept (.of_eq rfl rfl) (same_queue rfl) rfl
    (turnKeys_update rfl fun _ => ⟨rfl, rfl⟩)

theorem save_linked (h : s.Linked) {y : Session} : (s.save y).Linked :=
  h.kept ⟨fun _ hk => known_of_ids (map_updateWhere (fun _ hz => (of_decide_eq_true hz).symm) _) hk,
    fun _ hr => hr⟩ (same_queue rfl) rfl rfl

theorem reopen_linked (h : s.Linked) (hr : s.reopen now = .ok s') : s'.Linked := by
  simp only [reopen, bind_eq_ok] at hr
  obtain ⟨s₁, h₁, s₂, h₂, s₃, h₃, h₄⟩ := hr
  have l₀ : s.pauseRestarted.Linked := h.kept (.of_eq rfl rfl) (same_queue rfl) rfl rfl
  have l₁ : s₁.Linked := by
    refine foldlM_keeps (P := Linked) _ (fun t i _ u ht hs => ?_) _ _ l₀ h₁
    simp only [quarantine, bind_eq_ok] at hs
    obtain ⟨v, hv, hs⟩ := hs
    exact pauseQueue_linked (uncertainForwarded_linked ht hv) hs
  have l₂ : s₂.Linked :=
    foldlM_keeps (P := Linked) _ (fun _ _ _ _ ht hs => endSubagents_linked ht hs) _ _ l₁ h₂
  have l₃ : s₃.Linked :=
    foldlM_keeps (P := Linked) _ (fun _ _ _ _ ht hs => loseTurn_linked ht hs) _ _ l₂ h₃
  exact foldlM_keeps (P := Linked) _ (fun _ _ _ _ ht hs => event_linked (save_linked ht) hs) _ _
    l₃ h₄

theorem apply_linked {o : StoreOp × ℕ} (hl : s.QueueLedger) (h : s.Linked)
    (ho : s.apply o = .ok s') : s'.Linked := by
  have hx := apply_extends ho
  have hm := apply_moves hl ho
  obtain ⟨op, now⟩ := o
  have hq : (∀ id r, op ≠ .enqueue id r) →
      ∀ row ∈ s'.messageQueue, ∃ a ∈ s.messageQueue, a.sessionId = row.sessionId := by
    intro hne
    rcases hm with ⟨hm, _⟩ | ⟨id, r, hop, _⟩
    · exact moved_queue hm
    · exact absurd hop (hne id r)
  cases op with
  | createSession fresh projectId agent =>
    obtain ⟨_, rfl⟩ := createSession_cases ho
    exact h.kept hx (same_queue rfl) rfl rfl
  | archive id archived =>
    obtain ⟨_, _, _, rfl⟩ := archiveSession_cases ho
    exact save_linked h
  | state id status message =>
    obtain ⟨_, _, rfl⟩ := state_cases ho
    exact h.kept hx (same_queue rfl) rfl rfl
  | event id e => exact event_linked h ho
  | endSubagents id status => exact endSubagents_linked h ho
  | begin id r =>
    refine h.kept hx (hq (by simp)) ?_ ?_ <;>
    · simp only [apply, map_eq_ok] at ho
      obtain ⟨⟨t, new⟩, ho, rfl⟩ := ho
      obtain ⟨_, rfl, _⟩ | ⟨_, _, x, hx, _, _, rfl⟩ := beginTurn_cases ho <;> rfl
  | enqueue id r =>
    obtain ⟨⟨x, hx', _⟩, _, _, _, _, _, rfl⟩ := enqueue_cases ho
    refine ⟨fun row hrow => ?_, h.children, h.turns⟩
    rcases List.mem_append.1 hrow with hrow | hrow
    · exact h.queue row hrow
    · rw [List.mem_singleton.1 hrow]
      exact known_of_session hx'
  | edit id requestId revision text =>
    refine h.kept hx (hq (by simp)) ?_ ?_ <;>
    · obtain ⟨_, _, _, _, _, ⟨_, _, rfl, _⟩ | ⟨_, rfl⟩⟩ := editQueued_cases ho <;> rfl
  | reorder id expected order =>
    refine h.kept hx (hq (by simp)) ?_ ?_ <;>
    · obtain rfl | rfl := reorderQueue_cases ho <;> rfl
  | take id requestId revision =>
    refine h.kept hx (hq (by simp)) ?_ ?_ <;>
    · simp only [apply, map_eq_ok] at ho
      obtain ⟨⟨t, entry⟩, ho, rfl⟩ := ho
      obtain ⟨_, _, _, _, _, _, _, rfl⟩ := takeQueued_cases ho
      rfl
  | clear id =>
    refine h.kept hx (hq (by simp)) ?_ ?_ <;>
    · obtain ⟨_, rfl⟩ := clearQueue_cases ho
      rfl
  | pause id reason => exact pauseQueue_linked h ho
  | markForwarded id requestId revision =>
    refine h.kept hx (hq (by simp)) ?_ ?_ <;>
    · obtain ⟨_, _, _, _, _, _, rfl⟩ := markForwarded_cases ho
      first | rfl | exact turnKeys_update rfl fun _ => ⟨rfl, rfl⟩
  | rejectForwarded id requestId reason =>
    refine h.kept hx (hq (by simp)) ?_ ?_ <;>
    · obtain ⟨rfl, _⟩ | ⟨_, _, _, _, _, _, rfl⟩ := rejectForwarded_cases ho <;> rfl
  | consumeForwarded id requests =>
    refine h.kept hx (hq (by simp)) ?_ ?_ <;>
    · obtain rfl := Except.ok.inj ho
      rfl
  | uncertainForwarded id => exact uncertainForwarded_linked h ho
  | nativeTitle id title custom =>
    obtain rfl | ⟨_, _, rfl⟩ := syncNativeTitle_cases ho
    · exact h
    · exact save_linked h
  | nativeSession id native =>
    obtain ⟨_, _, rfl⟩ := saveNativeSession_cases ho
    exact save_linked h
  | saveBaseline id snapshot =>
    obtain ⟨_, rfl⟩ := saveBaseline_cases ho
    exact h.kept hx (same_queue rfl) rfl rfl
  | saveTurnBaseline id requestId baseline =>
    simp only [apply, saveTurnBaseline, bind_eq_ok] at ho
    obtain ⟨_, _, ho⟩ := ho
    split at ho
    · obtain rfl := Except.ok.inj ho
      exact h
    simp only [bind_eq_ok, bailIf_eq_ok, Except.ok.injEq, Option.isNone_iff_eq_none] at ho
    obtain ⟨_, href, _, hreq, rfl⟩ := ho
    refine ⟨h.queue, h.children, fun row hrow => ?_⟩
    rcases List.mem_append.1 hrow with hrow | hrow
    · exact h.turns row hrow
    · obtain ⟨r, hr⟩ := Option.ne_none_iff_exists'.1 hreq
      rw [List.mem_singleton.1 hrow]
      exact ⟨referenceSession_ok href, r, List.mem_of_find?_eq_some hr,
        by simpa using List.find?_some hr⟩
  | finishTurn id turn =>
    obtain rfl | rfl := finishTurn_cases ho
    · exact h
    · exact h.kept hx (same_queue rfl) rfl (turnKeys_update rfl fun _ => ⟨rfl, rfl⟩)
  | updateTurn id turn =>
    obtain rfl := updateTurn_cases ho
    exact h.kept hx (same_queue rfl) rfl (turnKeys_update rfl fun _ => ⟨rfl, rfl⟩)
  | reopen => exact reopen_linked h ho

theorem empty_linked (projects : List Project) : (Store.empty projects).Linked := by
  refine ⟨?_, ?_, ?_⟩ <;> simp [empty]

theorem after_linked (projects : List Project) (ops : List (StoreOp × ℕ)) :
    ((Store.empty projects).after ops).Linked := by
  refine (Runs.run_keeps (P := fun s : Store => s.QueueLedger ∧ s.Linked)
    ⟨empty_ledger projects, empty_linked projects⟩ (fun s o ⟨hl, h⟩ => ⟨step_ledger hl, ?_⟩) ops).2
  exact Runs.attempt_keeps (fun _ ho => apply_linked hl h ho) h

theorem Extends.trans {u : Store} (h : Extends s s') (h' : Extends s' u) : Extends s u :=
  ⟨fun id hk => h'.known id (h.known id hk), fun _ hr => h'.requests (h.requests hr)⟩

/-- Whatever is done to a database, its links hold and its log is numbered without a gap. Whatever is done
to it then, no session and no admitted request is lost, and the log grows at its end. -/
theorem tables_kept (projects : List Project) (ops more : List (StoreOp × ℕ)) :
    let s := (Store.empty projects).after ops
    let t := (Store.empty projects).after (ops ++ more)
    s.Linked ∧ s.Numbered ∧ Extends s t ∧ s.events <+: t.events := by
  intro s t
  have hsplit : t = s.after more := Runs.run_append ops more
  have hgrows : Extends s (s.after more) ∧ s.events <+: (s.after more).events :=
    Runs.run_relates (R := fun s t : Store => Extends s t ∧ s.events <+: t.events)
      (fun _ => ⟨.of_eq rfl rfl, List.prefix_rfl⟩) (fun h h' => ⟨h.1.trans h'.1, h.2.trans h'.2⟩)
      (P := fun _ => True) trivial (fun _ _ _ => trivial)
      (fun s o _ => Runs.attempt_keeps (P := fun t : Store => Extends s t ∧ s.events <+: t.events)
        (fun t ho => by
          obtain ⟨l, hl, -⟩ := apply_grew ho
          exact ⟨apply_extends ho, l, hl.symm⟩) ⟨.of_eq rfl rfl, List.prefix_rfl⟩) more
  rw [hsplit]
  exact ⟨after_linked projects ops, after_numbered projects ops, hgrows⟩

end

end Store

end LatteWork
