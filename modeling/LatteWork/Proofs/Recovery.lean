import LatteWork.Proofs.ChildRows
import LatteWork.Proofs.TurnRecords
import LatteWork.Wire.JsonSize

/-!
# Recovery on opening

Whatever the previous process left behind, opening the database succeeds and leaves nothing that
claims to be alive: no active session, no open hand-off, no running turn, and no queue that would
go on by itself. When every child has a row of its own, opening it again finds nothing to do.
-/

namespace LatteWork

open Fallible Table

namespace Store

variable {s s' : Store} {id : String} {now : ℕ}

/-- The session's queue will not go on by itself. -/
def Halted (s : Store) (id : String) : Prop :=
  (∃ st ∈ s.messageQueueState, st.sessionId = id) ∧
    ∀ st ∈ s.messageQueueState, st.sessionId = id → st.paused = true

/-- A session with pending messages has a row for its queue. -/
def QueueStated (s : Store) : Prop := ∀ row ∈ s.messageQueue, row.status = .pending →
  ∃ st ∈ s.messageQueueState, st.sessionId = row.sessionId

/-- What opening the database relies on, and every commit keeps. -/
structure Recoverable (s : Store) : Prop where
  ledger : s.QueueLedger
  linked : s.Linked
  wellFormed : ∀ row ∈ s.requests, RequestRow.WellFormed row
  stated : s.QueueStated

theorem Halted.queueState (h : s.Halted id) : (s.queueState id).1 = true := by
  obtain ⟨⟨st, hst, hid⟩, hall⟩ := h
  rcases hfind : s.messageQueueState.find? (·.sessionId = id) with _ | row
  · exact absurd hid (by simpa using List.find?_eq_none.1 hfind st hst)
  · rw [Store.queueState, hfind]
    exact hall row (List.mem_of_find?_eq_some hfind) (by simpa using List.find?_some hfind)

/-! ## The queues -/

theorem halted_setQueueState (h : s.Halted id) (row : QueueStateRow) (hp : row.paused = true) :
    (s.setQueueState row).Halted id := by
  obtain ⟨⟨st, hst, hid⟩, hall⟩ := h
  simp only [setQueueState, Halted]
  split
  · refine ⟨⟨_, mem_updateWhere.2 ⟨st, hst, rfl⟩, ?_⟩, fun st' hst' hid' => ?_⟩
    · split
      · rename_i hrow
        exact (of_decide_eq_true hrow).symm.trans hid
      · exact hid
    · obtain ⟨a, ha, rfl⟩ := mem_updateWhere.1 hst'
      by_cases hrow : a.sessionId = row.sessionId
      · rw [if_pos (decide_eq_true hrow)]
        exact hp
      · rw [if_neg (by simpa using hrow)] at hid' ⊢
        exact hall a ha hid'
  · refine ⟨⟨st, List.mem_append_left _ hst, hid⟩, fun st' hst' hid' => ?_⟩
    rcases List.mem_append.1 hst' with hst' | hst'
    · exact hall st' hst' hid'
    · rw [List.mem_singleton.1 hst']
      exact hp

theorem pauseRestarted_halted (h : s.Recoverable) {row : QueueRow} (hrow : row ∈ s.messageQueue)
    (hp : row.status = .pending) : s.pauseRestarted.Halted row.sessionId := by
  have hpending : s.messageQueue.any (QueueRow.pendingIn row.sessionId) = true :=
    List.any_eq_true.2 ⟨row, hrow, QueueRow.pendingIn_iff.2 ⟨rfl, hp⟩⟩
  obtain ⟨st, hst, hid⟩ := h.stated row hrow hp
  refine ⟨⟨_, mem_updateWhere.2 ⟨st, hst, rfl⟩, ?_⟩, fun st' hst' hid' => ?_⟩
  · split
    · exact hid
    · exact hid
  · obtain ⟨a, ha, rfl⟩ := mem_updateWhere.1 hst'
    by_cases haid : a.sessionId = row.sessionId
    · rw [if_pos (by rw [haid]; exact hpending)]
    · exfalso
      apply haid
      split at hid' <;> exact hid'

theorem quarantine_halted {i : String} (h : s.Halted id) (hq : quarantine now s i = .ok s') :
    s'.Halted id := by
  simp only [quarantine, bind_eq_ok] at hq
  obtain ⟨t, ht, hq⟩ := hq
  obtain ⟨_, rfl⟩ := pauseQueue_cases hq
  have hst : t.messageQueueState = s.messageQueueState :=
    uncertainForwarded_frame (p := .messageQueueState) ht (by decide)
  refine halted_setQueueState ?_ _ rfl
  rwa [Halted, hst]

/-! ## Every sweep succeeds -/

theorem uncertainForwarded_known (now : ℕ) (hk : s.Known id) : ∃ s', s.uncertainForwarded id now = .ok s' := by
  simp only [uncertainForwarded]
  split
  · exact event_known _ now (by simp) hk
  · exact ⟨_, rfl⟩

theorem quarantine_known (now : ℕ) (hk : s.Known id) : ∃ s', quarantine now s id = .ok s' := by
  obtain ⟨t, ht⟩ := uncertainForwarded_known now hk
  have hs : t.sessions = s.sessions := uncertainForwarded_frame (p := .sessions) ht (by decide)
  have href : t.referenceSession id = .ok () := referenceSession_of_mem (hs ▸ hk)
  refine ⟨_, bind_eq_ok.2 ⟨t, ht, bind_eq_ok.2 ⟨(), href, rfl⟩⟩⟩

theorem lostTurn_size (requestId : String) : (EventKind.turnChanges (lostTurn requestId)).toJson.size =
    (Json.str requestId).size + ((EventKind.turnChanges (lostTurn "")).toJson.size - 2) := by
  have hnil : (Json.str "").size = 2 := by decide
  simp only [EventKind.toJson, EventKind.fields, EventKind.kind, TurnChanges.toJson, lostTurn,
    Json.size_obj_cons, Json.fieldSize, List.map_cons, List.map_nil, List.sum_cons, List.sum_nil, hnil]
  omega

theorem loseTurn_known (now : ℕ) {requestId : String} (hk : s.Known id)
    (hlen : requestId.utf8ByteSize ≤ 100) : ∃ s', loseTurn now s (id, requestId) = .ok s' := by
  have hconst : (EventKind.turnChanges (lostTurn "")).toJson.size ≤ 1000 := by decide +kernel
  have hstr := Json.size_str_le requestId
  have hsize : (EventKind.turnChanges (lostTurn requestId)).toJson.size ≤ recordLimit := by
    rw [lostTurn_size, recordLimit]
    omega
  simp only [loseTurn, event, smallJson, if_pos hsize, referenceSession_of_mem hk]
  exact ⟨_, rfl⟩

theorem interrupt_known (now : ℕ) {x : Session} (hk : s.Known x.id) :
    ∃ s', interrupt now s x = .ok s' :=
  event_known _ now nofun (known_of_ids (map_updateWhere (fun _ hz => (of_decide_eq_true hz).symm) _) hk)

/-! ## The running turns and the active sessions -/

/-- The loop over the running turns: those still to be given up hold all there are. -/
theorem loseTurns (now : ℕ) : ∀ (turns : List (String × String)) {s : Store},
    (∀ turn ∈ turns, s.Known turn.1 ∧ turn.2.utf8ByteSize ≤ 100) →
    (∀ row ∈ s.turnChanges, row.baseline ≠ none → (row.sessionId, row.requestId) ∈ turns) →
    ∃ s', turns.foldlM (loseTurn now) s = .ok s' ∧ ∀ row ∈ s'.turnChanges, row.baseline = none
  | [], s, _, hall => by
    refine ⟨s, rfl, fun row hrow => ?_⟩
    by_contra hne
    exact absurd (hall row hrow hne) List.not_mem_nil
  | turn :: turns, s, hk, hall => by
    obtain ⟨hkt, hlen⟩ := hk turn List.mem_cons_self
    obtain ⟨t, ht⟩ := loseTurn_known now hkt hlen
    have hs : t.sessions = s.sessions := loseTurn_frame (p := .sessions) ht (by decide)
    have hturns : t.turnChanges = updateWhere (TurnRow.is turn.1 turn.2)
        (fun row => { row with baseline := none }) s.turnChanges := by
      simp only [loseTurn, bind_eq_ok, Except.ok.injEq] at ht
      obtain ⟨u, hu, rfl⟩ := ht
      rw [show u.turnChanges = s.turnChanges from event_frame (p := .turnChanges) hu (by decide)]
    obtain ⟨s', hs', hdone⟩ := loseTurns now turns
      (fun v hv => by
        obtain ⟨hkv, hlen⟩ := hk v (List.mem_cons_of_mem _ hv)
        exact ⟨by rwa [Known, hs], hlen⟩)
      (fun row hrow hne => by
        rw [hturns] at hrow
        obtain ⟨a, ha, rfl⟩ := mem_updateWhere.1 hrow
        by_cases his : a.is turn.1 turn.2
        · rw [if_pos his] at hne
          exact absurd rfl hne
        · rw [if_neg his] at hne ⊢
          rcases List.mem_cons.1 (hall a ha hne) with he | he
          · obtain ⟨hid, hreq⟩ := Prod.mk.inj he
            exact absurd (TurnRow.is_iff.2 ⟨hid, hreq⟩) his
          · exact he)
    refine ⟨s', ?_, hdone⟩
    rw [List.foldlM_cons, ht]
    exact hs'

/-- The loop over the active sessions: those still to be interrupted hold all there are. -/
theorem interrupts (now : ℕ) : ∀ (l : List Session) {s : Store}, (∀ x ∈ l, s.Known x.id) →
    (∀ x ∈ s.sessions, x.status.active → ∃ y ∈ l, y.id = x.id) →
    ∃ s', l.foldlM (interrupt now) s = .ok s' ∧ ∀ x ∈ s'.sessions, x.status.active = false
  | [], s, _, hall => by
    refine ⟨s, rfl, fun x hx => ?_⟩
    by_contra hact
    obtain ⟨y, hy, _⟩ := hall x hx (by simpa using hact)
    exact absurd hy List.not_mem_nil
  | y :: l, s, hk, hall => by
    obtain ⟨t, ht⟩ := interrupt_known now (hk y List.mem_cons_self)
    have hs : t.sessions = (s.save { y with status := .unknown }).sessions :=
      event_frame (p := .sessions) ht (by decide)
    have hids : t.sessions.map (·.id) = s.sessions.map (·.id) := by
      rw [hs]
      exact map_updateWhere (fun _ hz => (of_decide_eq_true hz).symm) _
    obtain ⟨s', hs', hdone⟩ := interrupts now l
      (fun x hx => known_of_ids hids (hk x (List.mem_cons_of_mem _ hx)))
      (fun x hx hact => by
        rw [hs] at hx
        obtain ⟨a, ha, rfl⟩ := mem_updateWhere.1 hx
        by_cases hay : a.id = y.id
        · rw [if_pos (decide_eq_true hay)] at hact
          cases hact
        · rw [if_neg (by simpa using hay)] at hact ⊢
          obtain ⟨z, hz, hzid⟩ := hall a ha hact
          rcases List.mem_cons.1 hz with rfl | hz
          · exact absurd hzid.symm hay
          · exact ⟨z, hz, hzid⟩)
    refine ⟨s', ?_, hdone⟩
    rw [List.foldlM_cons, ht]
    exact hs'

/-! ## Opening -/

/-- What a database says that is alive. -/
structure Settled (s : Store) : Prop where
  sessions : ∀ x ∈ s.sessions, x.status.active = false
  queue : ∀ row ∈ s.messageQueue, row.status ≠ .forwarded
  turns : ∀ row ∈ s.turnChanges, row.baseline = none
  halted : ∀ row ∈ s.messageQueue, row.status = .pending → (s.queueState row.sessionId).1 = true

theorem pending_giveUp {rows : List QueueRow} {row : QueueRow} (h : row ∈ giveUp rows)
    (hp : row.status = .pending) : row ∈ rows := by
  obtain ⟨a, ha, rfl⟩ := mem_updateWhere.1 h
  split at hp
  · cases hp
  · rename_i hf
    rwa [if_neg hf]

theorem endSubagents_known (status : SubagentStatus) (now : ℕ) (hk : s.Known id) :
    ∃ s', s.endSubagents id status now = .ok s' ∧ s'.sessions = s.sessions := by
  refine foldlM_succeeds (P := fun t : Store => t.sessions = s.sessions) _ (fun t row _ ht => ?_) s rfl
  obtain ⟨u, hu⟩ := event_known (s := t) id now (by exact nofun)
    (e := .subagent (row.renamed status)) (by rwa [Known, ht])
  have hs : u.sessions = t.sessions := event_frame (p := .sessions) hu (by decide)
  exact ⟨u, hu, hs.trans ht⟩

theorem quarantine_linked (h : s.Linked) (hq : quarantine now s id = .ok s') : s'.Linked := by
  simp only [quarantine, bind_eq_ok] at hq
  obtain ⟨t, ht, hq⟩ := hq
  exact pauseQueue_linked (uncertainForwarded_linked h ht) hq

/-- Opening a database that can be recovered succeeds, and settles it. -/
theorem reopen_settles (now : ℕ) (h : s.Recoverable) : ∃ t, s.reopen now = .ok t ∧ t.Settled := by
  have l₀ : s.pauseRestarted.Linked := h.linked.kept (.of_eq rfl rfl) (same_queue rfl) rfl rfl
  have hknown : ∀ {t : Store}, t.sessions = s.sessions → ∀ {i}, s.Known i → t.Known i := by
    intro t ht i hi
    rwa [Known, ht]
  obtain ⟨s₁, h₁, e₁⟩ := foldlM_succeeds (P := fun t : Store => t.sessions = s.sessions)
    (f := quarantine now)
    ((s.pauseRestarted.messageQueue.filter (·.status = .forwarded)).map (·.sessionId)).dedup
    (fun t i hi ht => by
      obtain ⟨row, hrow, rfl⟩ := List.mem_map.1 (List.mem_dedup.1 hi)
      obtain ⟨u, hu⟩ := quarantine_known now
        (hknown ht (h.linked.queue row (List.mem_filter.1 hrow).1))
      have hs : u.sessions = t.sessions := quarantine_frame (p := .sessions) hu (by decide)
      exact ⟨u, hu, hs.trans ht⟩) s.pauseRestarted rfl
  have l₁ : s₁.Linked :=
    foldlM_keeps (P := Linked) _ (fun _ _ _ _ ht hs => quarantine_linked ht hs) _ _ l₀ h₁
  obtain ⟨s₂, h₂, e₂⟩ := foldlM_succeeds (P := fun t : Store => t.sessions = s.sessions)
    (f := fun t i => t.endSubagents i .unknown now)
    ((s₁.subagents.filter (·.task.status.active)).map (·.sessionId)).dedup
    (fun t i hi ht => by
      obtain ⟨row, hrow, rfl⟩ := List.mem_map.1 (List.mem_dedup.1 hi)
      have hk := l₁.children row (List.mem_filter.1 hrow).1
      rw [Known, e₁] at hk
      obtain ⟨u, hu, hs⟩ := endSubagents_known .unknown now (hknown ht hk)
      exact ⟨u, hu, hs.trans ht⟩) s₁ e₁
  have l₂ : s₂.Linked :=
    foldlM_keeps (P := Linked) _ (fun _ _ _ _ ht hs => endSubagents_linked ht hs) _ _ l₁ h₂
  have hr₂ : s₂.requests = s.requests := by
    have q₁ : s₁.requests = s.pauseRestarted.requests :=
      foldlM_frame (p := .requests) (fun _ _ _ h => quarantine_frame h (by decide)) h₁
    have q₂ : s₂.requests = s₁.requests :=
      foldlM_frame (p := .requests) (fun _ _ _ h => endSubagents_frame h (by decide)) h₂
    exact q₂.trans q₁
  obtain ⟨s₃, h₃, hturns⟩ := loseTurns now
    ((s₂.turnChanges.filter (·.baseline.isSome)).map fun t => (t.sessionId, t.requestId)) (s := s₂)
    (fun turn hturn => by
      obtain ⟨row, hrow, rfl⟩ := List.mem_map.1 hturn
      obtain ⟨hk, r, hr, hrid⟩ := l₂.turns row (List.mem_filter.1 hrow).1
      have hwell := h.wellFormed r (hr₂ ▸ hr)
      simp only [RequestRow.WellFormed, not_or] at hwell
      exact ⟨hk, hrid ▸ Nat.le_of_not_lt hwell.2.1⟩)
    (fun row hrow hne => List.mem_map.2 ⟨row, List.mem_filter.2 ⟨hrow,
      Option.ne_none_iff_isSome.1 hne⟩, rfl⟩)
  obtain ⟨s', h₄, hsessions⟩ := interrupts now (s₃.sessions.reverse.filter (·.status.active))
    (fun x hx => ⟨x, List.mem_reverse.1 (List.mem_filter.1 hx).1, rfl⟩)
    (fun x hx hact => ⟨x, List.mem_filter.2 ⟨List.mem_reverse.2 hx, by simpa using hact⟩, rfl⟩)
  have hr : s.reopen now = .ok s' := by
    simp only [reopen, bind_eq_ok]
    exact ⟨s₁, h₁, s₂, h₂, s₃, h₃, h₄⟩
  have hqueue := (reopen_cases hr).messageQueue
  refine ⟨s', hr, hsessions, fun row hrow hf => ?_, ?_, fun row hrow hp => ?_⟩
  · rw [hqueue] at hrow
    obtain ⟨a, ha, rfl⟩ := mem_updateWhere.1 hrow
    split at hf
    · cases hf
    · rename_i hne
      exact hne (by simpa using hf)
  · have q₄ : s'.turnChanges = s₃.turnChanges :=
      foldlM_frame (p := .turnChanges) (fun _ _ _ h => interrupt_frame h (by decide)) h₄
    rw [q₄]
    exact hturns
  · rw [hqueue] at hrow
    have hhalt : s₁.Halted row.sessionId :=
      foldlM_keeps (P := fun t : Store => t.Halted row.sessionId) _
        (fun _ _ _ _ ht hs => quarantine_halted ht hs) _ _
        (pauseRestarted_halted h (pending_giveUp hrow hp) hp) h₁
    have q₂ : s₂.messageQueueState = s₁.messageQueueState :=
      foldlM_frame (p := .messageQueueState) (fun _ _ _ h => endSubagents_frame h (by decide)) h₂
    have q₃ : s₃.messageQueueState = s₂.messageQueueState :=
      foldlM_frame (p := .messageQueueState) (fun _ _ _ h => loseTurn_frame h (by decide)) h₃
    have q₄ : s'.messageQueueState = s₃.messageQueueState :=
      foldlM_frame (p := .messageQueueState) (fun _ _ _ h => interrupt_frame h (by decide)) h₄
    refine Halted.queueState ?_
    rwa [Halted, q₄, q₃, q₂]

/-- A settled database without active children is opened without a change but for the reason its
queues are paused for. -/
theorem Settled.reopen (h : s.Settled)
    (hc : ∀ row ∈ s.subagents, row.task.status.active = false) :
    s.reopen now = .ok s.pauseRestarted := by
  have hq : s.pauseRestarted.messageQueue.filter (·.status = .forwarded) = [] :=
    List.filter_eq_nil_iff.2 fun row hrow => by simpa using h.queue row hrow
  have hch : s.pauseRestarted.subagents.filter (·.task.status.active) = [] :=
    List.filter_eq_nil_iff.2 fun row hrow => by simpa using hc row hrow
  have ht : s.pauseRestarted.turnChanges.filter (·.baseline.isSome) = [] :=
    List.filter_eq_nil_iff.2 fun row hrow => by simp [h.turns row hrow]
  have hs : s.pauseRestarted.sessions.reverse.filter (·.status.active) = [] :=
    List.filter_eq_nil_iff.2 fun x hx => by simpa using h.sessions x (List.mem_reverse.1 hx)
  simp only [Store.reopen, bind_eq_ok]
  refine ⟨s.pauseRestarted, by rw [hq]; rfl, s.pauseRestarted, by rw [hch]; rfl, s.pauseRestarted,
    by rw [ht]; rfl, by rw [hs]; rfl⟩

/-! ## Every database can be recovered -/

theorem mem_setQueueState {row : QueueStateRow} {i : String}
    (h : (∃ st ∈ s.messageQueueState, st.sessionId = i) ∨ row.sessionId = i) :
    ∃ st ∈ (s.setQueueState row).messageQueueState, st.sessionId = i := by
  simp only [setQueueState]
  by_cases hany : s.messageQueueState.any (·.sessionId = row.sessionId)
  · rw [if_pos hany]
    have hmap : (updateWhere (·.sessionId = row.sessionId) (fun _ => row) s.messageQueueState).map
        (·.sessionId) = s.messageQueueState.map (·.sessionId) :=
      map_updateWhere (fun _ hst => (of_decide_eq_true hst).symm) _
    have hi : i ∈ s.messageQueueState.map (·.sessionId) := by
      rcases h with h | rfl
      · exact List.mem_map.2 h
      · obtain ⟨st, hst, hid⟩ := List.any_eq_true.1 hany
        exact List.mem_map.2 ⟨st, hst, of_decide_eq_true hid⟩
    rw [← hmap] at hi
    exact List.mem_map.1 hi
  · rw [if_neg hany]
    rcases h with ⟨st, hst, hid⟩ | hid
    · exact ⟨st, List.mem_append_left _ hst, hid⟩
    · exact ⟨row, by simp, hid⟩

/-- The queues that have a row keep it. -/
def StatesKept (s t : Store) : Prop := ∀ i, (∃ st ∈ s.messageQueueState, st.sessionId = i) →
  ∃ st ∈ t.messageQueueState, st.sessionId = i

theorem StatesKept.of_eq (h : s'.messageQueueState = s.messageQueueState) : StatesKept s s' := by
  intro i hi
  rwa [h]

theorem StatesKept.trans {t u : Store} (h : StatesKept s t) (h' : StatesKept t u) :
    StatesKept s u := fun i hi => h' i (h i hi)

theorem pauseRestarted_states : StatesKept s s.pauseRestarted := by
  rintro i ⟨st, hst, hid⟩
  refine ⟨_, mem_updateWhere.2 ⟨st, hst, rfl⟩, ?_⟩
  split <;> exact hid

theorem pauseQueue_states {reason : Option String} (h : s.pauseQueue id reason = .ok s') :
    StatesKept s s' := by
  obtain ⟨_, rfl⟩ := pauseQueue_cases h
  exact fun i hi => mem_setQueueState (.inl hi)

theorem quarantine_states (h : quarantine now s id = .ok s') : StatesKept s s' := by
  simp only [quarantine, bind_eq_ok] at h
  obtain ⟨t, ht, h⟩ := h
  exact (StatesKept.of_eq (uncertainForwarded_frame (p := .messageQueueState) ht (by decide))).trans
    (pauseQueue_states h)

theorem reopen_states (h : s.reopen now = .ok s') : StatesKept s s' := by
  simp only [reopen, bind_eq_ok] at h
  obtain ⟨s₁, h₁, s₂, h₂, s₃, h₃, h₄⟩ := h
  have q₁ : StatesKept s s₁ := pauseRestarted_states.trans
    (foldlM_keeps (P := StatesKept s.pauseRestarted) _
      (fun _ _ _ _ ht hs => ht.trans (quarantine_states hs)) _ _ (.of_eq rfl) h₁)
  have q₂ : s₂.messageQueueState = s₁.messageQueueState :=
    foldlM_frame (p := .messageQueueState) (fun _ _ _ h => endSubagents_frame h (by decide)) h₂
  have q₃ : s₃.messageQueueState = s₂.messageQueueState :=
    foldlM_frame (p := .messageQueueState) (fun _ _ _ h => loseTurn_frame h (by decide)) h₃
  have q₄ : s'.messageQueueState = s₃.messageQueueState :=
    foldlM_frame (p := .messageQueueState) (fun _ _ _ h => interrupt_frame h (by decide)) h₄
  exact q₁.trans (.of_eq (q₄.trans (q₃.trans q₂)))

theorem enqueue_states {r : Submission} (h : s.enqueue id r now = .ok s') :
    StatesKept s s' ∧ ∃ st ∈ s'.messageQueueState, st.sessionId = id := by
  simp only [enqueue, bind_eq_ok, bailIf_eq_ok, Except.ok.injEq] at h
  obtain ⟨_, _, _, _, _, _, _, _, _, _, _, _, _, _, _, _, rfl⟩ := h
  by_cases hany : s.messageQueueState.any (·.sessionId = id)
  · refine ⟨.of_eq (if_pos hany), ?_⟩
    obtain ⟨st, hst, hid⟩ := List.any_eq_true.1 hany
    exact ⟨st, by rwa [if_pos hany], of_decide_eq_true hid⟩
  · simp only [if_neg hany]
    exact ⟨fun i ⟨st, hst, hid⟩ => ⟨st, List.mem_append_left _ hst, hid⟩,
      { sessionId := id }, by simp, rfl⟩

theorem rejectForwarded_states {requestId reason : String}
    (h : s.rejectForwarded id requestId reason now = .ok s') :
    StatesKept s s' ∧ (s' = s ∨ ∃ st ∈ s'.messageQueueState, st.sessionId = id) := by
  unfold rejectForwarded at h
  split at h
  · obtain rfl := Except.ok.inj h
    exact ⟨.of_eq rfl, .inl rfl⟩
  · simp only [bind_eq_ok, Except.ok.injEq] at h
    obtain ⟨_, _, rfl⟩ := h
    exact ⟨fun i hi => mem_setQueueState (.inl hi), .inr (mem_setQueueState (.inr rfl))⟩

theorem apply_stated {o : StoreOp × ℕ} (hl : s.QueueLedger) (h : s.QueueStated)
    (ho : s.apply o = .ok s') : s'.QueueStated := by
  have hm := apply_moves hl ho
  obtain ⟨op, now⟩ := o
  by_cases hen : ∃ id r, op = .enqueue id r
  · obtain ⟨id, r, rfl⟩ := hen
    obtain ⟨hkept, hst⟩ := enqueue_states ho
    obtain ⟨_, _, _, _, _, _, rfl⟩ := enqueue_cases ho
    intro row hrow hp
    rcases List.mem_append.1 hrow with hrow | hrow
    · exact hkept _ (h row hrow hp)
    · rw [List.mem_singleton.1 hrow]
      exact hst
  obtain ⟨hm, _⟩ | ⟨id, r, hop, _⟩ := hm
  swap
  · exact absurd ⟨id, r, hop⟩ hen
  by_cases hre : ∃ id requestId reason, op = .rejectForwarded id requestId reason
  · obtain ⟨id, requestId, reason, rfl⟩ := hre
    obtain ⟨hkept, rfl | hst⟩ := rejectForwarded_states ho
    · exact h
    obtain ⟨rfl, _⟩ | ⟨_, _, _, _, _, _, rfl⟩ := rejectForwarded_cases ho
    · exact h
    intro row hrow hp
    obtain ⟨a, ha, rfl⟩ := mem_updateWhere.1 hrow
    split at hp
    · rename_i hf
      rw [if_pos hf]
      rw [← (QueueRow.isForwarded_iff.1 hf).1.1] at hst
      exact hst
    · rename_i hf
      rw [if_neg hf]
      exact hkept _ (h a ha hp)
  -- no other operation makes a message pending
  have hpend : ∀ row ∈ s'.messageQueue, row.status = .pending → ∃ a ∈ s.messageQueue,
      a.status = .pending ∧ a.sessionId = row.sessionId := by
    intro row hrow hp
    obtain ⟨a, ha, hab⟩ := forall₂_source hm hrow
    rcases hab.pending_of hp with hpa | ⟨hr, _⟩
    · exact ⟨a, ha, hpa, hab.sessionId.symm⟩
    · cases op <;> first | exact absurd ⟨_, _, _, rfl⟩ hre | cases hr
  by_cases hcl : ∃ id, op = .clear id
  · obtain ⟨id, rfl⟩ := hcl
    simp only [apply, clearQueue, bind_eq_ok, Except.ok.injEq] at ho
    obtain ⟨_, _, rfl⟩ := ho
    intro row hrow hp
    obtain ⟨a, ha, rfl⟩ := mem_updateWhere.1 hrow
    split at hp
    · cases hp
    rename_i hf
    rw [if_neg hf]
    obtain ⟨st, hst, hid⟩ := h a ha hp
    refine ⟨st, List.mem_filter.2 ⟨hst, ?_⟩, hid⟩
    have hne : a.sessionId ≠ id := fun he => hf (QueueRow.pendingIn_iff.2 ⟨he, hp⟩)
    simpa [hid] using hne
  suffices hkept : StatesKept s s' by
    intro row hrow hp
    obtain ⟨a, ha, hpa, hid⟩ := hpend row hrow hp
    exact hid ▸ hkept _ (h a ha hpa)
  by_cases hpq : ∃ id reason, op = .pause id reason
  · obtain ⟨id, reason, rfl⟩ := hpq
    exact pauseQueue_states ho
  by_cases hro : op = .reopen
  · subst hro
    exact reopen_states ho
  refine .of_eq (apply_frame (p := .messageQueueState) ho ?_)
  cases op <;> simp_all [StoreOp.writes]

theorem apply_wellFormed {o : StoreOp × ℕ} (h : ∀ row ∈ s.requests, RequestRow.WellFormed row)
    (ho : s.apply o = .ok s') : ∀ row ∈ s'.requests, RequestRow.WellFormed row := by
  by_cases hb : ∃ id r, o.1 = .begin id r
  · obtain ⟨op, now⟩ := o
    obtain ⟨id, r, rfl⟩ := hb
    simp only [apply, map_eq_ok] at ho
    obtain ⟨⟨t, new⟩, ho, rfl⟩ := ho
    obtain ⟨_, rfl, _⟩ | ⟨_, ha, x, _, _, _, rfl⟩ := beginTurn_cases ho
    · exact h
    intro row hrow
    rcases List.mem_append.1 hrow with hrow | hrow
    · exact h row hrow
    · rw [List.mem_singleton.1 hrow]
      exact (alreadyAccepted_false ha).2
  · rw [apply_requests ho fun id r he => hb ⟨id, r, he⟩]
    exact h

/-- A commit keeps the database recoverable. -/
theorem write_recoverable {w : StoreWrite × ℕ} (h : s.Recoverable) (hw : s.write w = .ok s') :
    s'.Recoverable := by
  obtain ⟨hl, hk, hwf, hst⟩ := h
  obtain ⟨w, now⟩ := w
  cases w with
  | whole op =>
    exact ⟨apply_ledger hl hw, apply_linked hl hk hw, apply_wellFormed hwf hw, apply_stated hl hst hw⟩
  | pauseRestarted =>
    obtain rfl := Except.ok.inj hw
    exact ⟨hl, hk.kept (.of_eq rfl rfl) (same_queue rfl) rfl rfl, hwf,
      fun row hrow hp => pauseRestarted_states _ (hst row hrow hp)⟩
  | uncertainRows id =>
    obtain rfl := Except.ok.inj hw
    have hm : List.Forall₂ (Moves (.uncertainForwarded id)) s.messageQueue
        (updateWhere (QueueRow.forwardedIn id) (fun row => { row with status := .uncertain })
          s.messageQueue) :=
      forall₂_updateWhere Moves.stay fun a _ hap => .uncertain a (QueueRow.forwardedIn_iff.1 hap).2
    refine ⟨hl.moves hm, hk.kept (.of_eq rfl rfl) (moved_queue hm) rfl rfl, hwf,
      fun row hrow hp => ?_⟩
    obtain ⟨a, ha, hab⟩ := forall₂_source hm hrow
    rcases hab.pending_of hp with hpa | ⟨hr, _⟩
    · exact hab.sessionId ▸ hst a ha hpa
    · cases hr
  | dropBaseline id requestId =>
    obtain rfl := Except.ok.inj hw
    exact ⟨hl, hk.kept (.of_eq rfl rfl) (same_queue rfl) rfl
      (turnKeys_update rfl fun _ => ⟨rfl, rfl⟩), hwf, hst⟩
  | unknownStatus session =>
    obtain rfl := Except.ok.inj hw
    exact ⟨hl, save_linked hk, hwf, hst⟩

theorem afterWrites_recoverable (projects : List Project) (writes : List (StoreWrite × ℕ)) :
    ((Store.empty projects).afterWrites writes).Recoverable := by
  refine Runs.run_keeps (P := Recoverable) ⟨empty_ledger projects, empty_linked projects, ?_, ?_⟩
    (fun _ _ h => Runs.attempt_keeps (fun _ hw => write_recoverable h hw) h) writes
  · simp [empty]
  · intro row hrow
    cases hrow

/-- The second database is the first after some commits, none of which is an opening. -/
def Commits (s t : Store) : Prop :=
  ∃ writes : List (StoreWrite × ℕ), (∀ w ∈ writes, w.1 ≠ .whole .reopen) ∧ s.afterWrites writes = t

namespace Commits

variable {t u : Store}

theorem refl (s : Store) : Commits s s := ⟨[], by simp, rfl⟩

theorem one (now : ℕ) {w : StoreWrite} (hw : w ≠ .whole .reopen) (h : s.write (w, now) = .ok t) :
    Commits s t :=
  ⟨[(w, now)], by simpa using hw, Runs.attempt_ok h⟩

theorem trans (h : Commits s t) (h' : Commits t u) : Commits s u := by
  obtain ⟨ws, hws, rfl⟩ := h
  obtain ⟨more, hmore, rfl⟩ := h'
  exact ⟨ws ++ more, fun w hw => (List.mem_append.1 hw).elim (hws w) (hmore w), Runs.run_append ws more⟩

theorem foldlM {α : Type} {f : Store → α → Except String Store}
    (hf : ∀ s s' a, f s a = .ok s' → Commits s s') {l : List α} (h : l.foldlM f s = .ok s') :
    Commits s s' :=
  foldlM_keeps (P := Commits s) _ (fun _ _ _ _ hq hs => hq.trans (hf _ _ _ hs)) _ _ (refl s) h

theorem event {e : AgentEvent} (h : s.event id e.event now = .ok t) : Commits s t :=
  one now (w := .whole (.event id e)) (fun h => by cases h) h

theorem quarantine (h : Store.quarantine now s id = .ok t) : Commits s t := by
  simp only [Store.quarantine, bind_eq_ok] at h
  obtain ⟨v, hv, h⟩ := h
  refine Commits.trans ?_ (one now (w := .whole (.pause id _)) (fun h => by cases h) h)
  refine (one now (w := .uncertainRows id) (fun h => by cases h) rfl).trans ?_
  simp only [uncertainForwarded] at hv
  split at hv
  · exact event (e := { event := .notice _ }) hv
  · obtain rfl := Except.ok.inj hv
    exact refl _

theorem loseTurn {turn : String × String} (h : Store.loseTurn now s turn = .ok t) :
    Commits s t := by
  simp only [Store.loseTurn, bind_eq_ok, Except.ok.injEq] at h
  obtain ⟨v, hv, rfl⟩ := h
  exact (event (e := { event := .turnChanges _ }) hv).trans
    (one now (w := .dropBaseline turn.1 turn.2) (fun h => by cases h) rfl)

theorem interrupt {x : Session} (h : Store.interrupt now s x = .ok t) : Commits s t :=
  (one now (w := .unknownStatus x) (fun h => by cases h) rfl).trans (event (e := { event := .state _ _ }) h)

end Commits

theorem reopen_commits (h : s.reopen now = .ok s') : Commits s s' := by
  simp only [reopen, bind_eq_ok] at h
  obtain ⟨s₁, h₁, s₂, h₂, s₃, h₃, h₄⟩ := h
  have q₀ : Commits s s.pauseRestarted := .one now (w := .pauseRestarted) (fun h => by cases h) rfl
  have q₂ : Commits s₁ s₂ := .foldlM (fun _ _ _ h => .foldlM
    (fun _ _ row h => .event (e := { event := .subagent _ }) h) h) h₂
  exact (((q₀.trans (.foldlM (fun _ _ _ => .quarantine) h₁)).trans q₂).trans
    (.foldlM (fun _ _ _ => .loseTurn) h₃)).trans (.foldlM (fun _ _ _ => .interrupt) h₄)

/-- Opening a database is a run of commits, and a process may die after any of them: the next opening
settles what is left. -/
theorem opening_interrupted (projects : List Project) (writes : List (StoreWrite × ℕ)) (now : ℕ) :
    let s := (Store.empty projects).afterWrites writes
    ∃ t, ∃ commits : List (StoreWrite × ℕ), s.reopen now = .ok t ∧ (∀ w ∈ commits, w.1 ≠ .whole .reopen) ∧
      s.afterWrites commits = t ∧
      ∀ n later, ∃ u, (s.afterWrites (commits.take n)).reopen later = .ok u ∧ u.Settled := by
  intro s
  obtain ⟨t, ht, -⟩ := reopen_settles now (afterWrites_recoverable projects writes)
  obtain ⟨commits, hsingle, hrun⟩ := reopen_commits ht
  refine ⟨t, commits, ht, hsingle, hrun, fun n later => ?_⟩
  have happend : s.afterWrites (commits.take n) = (Store.empty projects).afterWrites (writes ++ commits.take n) :=
    (Runs.run_append writes _).symm
  rw [happend]
  exact reopen_settles later (afterWrites_recoverable projects _)

/-- Every update that is recorded on the way means at most one row of its session. -/
def WritesNameOne (s : Store) (writes : List (StoreWrite × ℕ)) : Prop :=
  Runs.Throughout (Runs.attempt write) (fun s w =>
    match w with
    | (.whole op, now) => s.namesOne (op, now) = true
    | _ => True) s writes

theorem write_apart {w : StoreWrite × ℕ} (h : s.ChildrenApart) (hl : s.Linked)
    (hone : ∀ op, w.1 = .whole op → s.namesOne (op, w.2) = true) (hw : s.write w = .ok s') :
    s'.ChildrenApart := by
  obtain ⟨w, now⟩ := w
  cases w with
  | whole op => exact apply_apart h hl (hone op rfl) hw
  | _ =>
    obtain rfl := Except.ok.inj hw
    exact h.of_eq rfl

theorem afterWrites_apart (projects : List Project) {writes : List (StoreWrite × ℕ)}
    (hw : (Store.empty projects).WritesNameOne writes) :
    ((Store.empty projects).afterWrites writes).ChildrenApart := by
  have h₀ : (Store.empty projects).Recoverable := afterWrites_recoverable projects []
  refine (Runs.throughout_keeps (P := fun s : Store => s.Recoverable ∧ s.ChildrenApart)
    (fun s w ⟨hr, h⟩ hone => ⟨?_, ?_⟩) ⟨h₀, List.nodup_nil, by simp [empty]⟩ hw).2
  · exact Runs.attempt_keeps (fun _ hw => write_recoverable hr hw) hr
  · refine Runs.attempt_keeps (fun _ hw => write_apart h hr.linked (fun op he => ?_) hw) h
    obtain ⟨w, now⟩ := w
    obtain rfl : w = .whole op := he
    exact hone

theorem pauseRestarted_paused (h : s.Settled) (id : String) :
    (s.pauseRestarted.queueState id).1 = (s.queueState id).1 := by
  have hfind : s.pauseRestarted.messageQueueState.find? (·.sessionId = id) =
      (s.messageQueueState.find? (·.sessionId = id)).map fun row =>
        if s.messageQueue.any (QueueRow.pendingIn row.sessionId) then
          { row with paused := true, reason := some "后台已重启，请核对当前任务后继续排队" }
        else row := by
    simp only [pauseRestarted, updateWhere, List.find?_map]
    congr 1
    refine congrArg (fun q => s.messageQueueState.find? q) (funext fun row => ?_)
    simp only [Function.comp]
    split <;> rfl
  rcases hst : s.messageQueueState.find? (·.sessionId = id) with _ | row
  · rw [queueState, queueState, hfind, hst]
    rfl
  · by_cases hany : s.messageQueue.any (QueueRow.pendingIn row.sessionId)
    -- the queue has pending messages, so it was paused before
    · obtain ⟨q, hq, hp⟩ := List.any_eq_true.1 hany
      obtain ⟨hqid, hqp⟩ := QueueRow.pendingIn_iff.1 hp
      have hrow : row.sessionId = id := by simpa using List.find?_some hst
      have hpaused := h.halted q hq hqp
      rw [hqid, hrow] at hpaused
      rw [hpaused, queueState, hfind, hst, Option.map_some, if_pos hany]
    · rw [queueState, queueState, hfind, hst, Option.map_some, if_neg hany]

/-- Opening any database the server can have left recovers it, and where every child has one row
opening it again changes nothing. -/
theorem reopen_recovers (projects : List Project) (writes : List (StoreWrite × ℕ)) (now : ℕ) :
    let s := (Store.empty projects).afterWrites writes
    ∃ t, s.reopen now = .ok t ∧
      (∀ x ∈ t.sessions, x.status.active = false) ∧
      (∀ row ∈ t.messageQueue, row.status ≠ .forwarded) ∧
      (∀ row ∈ t.turnChanges, row.baseline = none) ∧
      (∀ row ∈ t.messageQueue, row.status = .pending → (t.queueState row.sessionId).1 = true) ∧
      s.events <+: t.events ∧ t.requests = s.requests ∧
      t.messageQueue.map (·.requestId) = s.messageQueue.map (·.requestId) ∧
      ((Store.empty projects).WritesNameOne writes → ∀ later,
        ∃ u, t.reopen later = .ok u ∧ u.sessions = t.sessions ∧ u.messageQueue = t.messageQueue ∧
          u.turnChanges = t.turnChanges ∧ u.events = t.events ∧
          ∀ id, (u.queueState id).1 = (t.queueState id).1) := by
  have hr := afterWrites_recoverable projects writes
  obtain ⟨t, ht, hs⟩ := reopen_settles now hr
  have hc := reopen_cases ht
  obtain ⟨l, hl, _⟩ := hc.logged
  refine ⟨t, ht, hs.sessions, hs.queue, hs.turns, hs.halted, ⟨l, hl.symm⟩, hc.requests, ?_,
    fun hw later => ⟨_, hs.reopen ?_, rfl, rfl, rfl, rfl, pauseRestarted_paused hs⟩⟩
  · rw [hc.messageQueue]
    refine map_updateWhere (fun _ _ => ?_) _
    rfl
  · exact (reopen_children (afterWrites_apart projects hw) hr.linked ht).2

/-- With two rows for one child, the second opening reports the child again. -/
theorem reopen_reports_again :
    let s := (Store.empty oneProject).after crossing
    (match s.reopen 4 with
      | .ok t =>
        match t.reopen 5 with
        | .ok u => decide (t.events.length < u.events.length)
        | .error _ => false
      | .error _ => false) = true := by
  decide +kernel

end Store

end LatteWork
