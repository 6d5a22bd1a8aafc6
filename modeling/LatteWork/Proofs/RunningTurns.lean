import LatteWork.Proofs.HandOff

/-!
# Prompts and running turns

Every prompt in the log has a row in `requests`, and a session whose last prompt has not come to an
end is active, so that the next one is refused: over every run of the database a request id is
prompted once and a session has one running turn.
-/

namespace LatteWork

open Fallible Table

/-- A request id and a text that `already_accepted` lets through. -/
def RequestRow.WellFormed (row : RequestRow) : Prop :=
  ¬(row.id = "" ∨ 100 < row.id.utf8ByteSize ∨ blank row.text ∨
    128 * 1024 < row.text.utf8ByteSize)

/-- The turns of a session that run, after one more row of its log. -/
def turnsAfter (turns : ℕ) (row : EventRow) : ℕ :=
  match row.event with
  | .user .. => turns + 1
  | .state status _ => if status.active then turns else 0
  | _ => turns

namespace Store

/-- The prompts of a session that no end of a turn follows. -/
def runningTurns (s : Store) (id : String) : ℕ :=
  (s.events.filter (·.sessionId = id)).foldl turnsAfter 0

section Admitted

variable {s s' : Store} {id : String} {r : Submission} {now : ℕ}

/-- The ledger of admitted requests and the prompts of the log tell the same. -/
structure Prompts (s : Store) : Prop where
  keyed : Keyed RequestRow.id s.requests
  wellFormed : ∀ row ∈ s.requests, RequestRow.WellFormed row
  logged : s.userRequests = s.requests.map (·.id)

theorem alreadyAccepted_false (h : s.alreadyAccepted id r = .ok false) :
    (∀ row ∈ s.requests, row.id ≠ r.requestId) ∧ RequestRow.WellFormed (admitted id r) := by
  simp only [alreadyAccepted, bind_eq_ok, bailIf_eq_ok] at h
  obtain ⟨_, hwell, h⟩ := h
  split at h
  · rename_i hnone
    exact ⟨by simpa using hnone, hwell⟩
  · simp only [bind_eq_ok, Except.ok.injEq] at h
    obtain ⟨_, _, _, _, hf⟩ := h
    cases hf

/-- A retry of an admitted request. -/
theorem Prompts.alreadyAccepted (hp : s.Prompts) (h : admitted id r ∈ s.requests) :
    s.alreadyAccepted id r = .ok true := by
  have hfind : s.requests.find? (·.id = r.requestId) = some (admitted id r) :=
    hp.keyed.find? h
  have hwell := hp.wellFormed _ h
  simp only [RequestRow.WellFormed, admitted] at hwell
  simp [Store.alreadyAccepted, hwell, hfind, admitted]

/-- Reuse of an admitted request's id for anything else. -/
theorem Prompts.alreadyAccepted_error (hp : s.Prompts) {row : RequestRow} (hrow : row ∈ s.requests)
    (hid : row.id = r.requestId) (hne : row ≠ admitted id r) :
    ∃ e, s.alreadyAccepted id r = .error e := by
  have hfind : s.requests.find? (·.id = r.requestId) = some row :=
    hid ▸ hp.keyed.find? hrow
  rcases ha : s.alreadyAccepted id r with e | accepted
  · exact ⟨e, rfl⟩
  exfalso
  simp only [Store.alreadyAccepted, hfind, bind_eq_ok, bailIf_eq_ok, not_or, not_not] at ha
  obtain ⟨_, _, _, ⟨hs, ht, hm, he, hpm⟩, _, hf, _⟩ := ha
  apply hne
  cases row
  simp_all [admitted]

/-- Every operation but `begin` leaves the requests alone. -/
theorem apply_requests {o : StoreOp × ℕ} (h : s.apply o = .ok s')
    (hb : ∀ id r, o.1 ≠ .begin id r) : s'.requests = s.requests := by
  refine apply_frame (p := .requests) h ?_
  obtain ⟨op, now⟩ := o
  cases op with
  | begin id r => exact absurd rfl (hb id r)
  | _ => simp [StoreOp.writes]

/-- Every operation but `begin` leaves the prompts of the log alone. -/
theorem apply_userRequests {o : StoreOp × ℕ} (h : s.apply o = .ok s')
    (hb : ∀ id r, o.1 ≠ .begin id r) : s'.userRequests = s.userRequests := by
  by_cases hm : ∃ id q n, o.1 = .markForwarded id q n
  · obtain ⟨op, now⟩ := o
    obtain ⟨id, q, n, rfl⟩ := hm
    obtain ⟨_, _, _, _, _, _, rfl⟩ := markForwarded_cases h
    simp [userRequests, EventKind.userRequest]
  · exact (apply_logged h hb fun id q n e => hm ⟨id, q, n, e⟩).userRequests

theorem userRequests_insertEvent {e : EventKind} :
    (s.insertEvent id e now).userRequests = s.userRequests ++ e.userRequest.toList := by
  rw [userRequests, insertEvent_events, List.filterMap_append, userRequests]
  rcases h : e.userRequest <;> simp [h]

theorem apply_prompts {o : StoreOp × ℕ} (hp : s.Prompts) (h : s.apply o = .ok s') :
    s'.Prompts := by
  by_cases hb : ∃ id r, o.1 = .begin id r
  · obtain ⟨op, now⟩ := o
    obtain ⟨id, r, rfl⟩ := hb
    simp only [apply, map_eq_ok] at h
    obtain ⟨⟨t, new⟩, h, rfl⟩ := h
    obtain ⟨_, rfl, _⟩ | ⟨_, ha, x, _, _, _, rfl⟩ := beginTurn_cases h
    · exact hp
    obtain ⟨hnew, hwell⟩ := alreadyAccepted_false ha
    refine ⟨hp.keyed.append hnew, fun row hrow => ?_, ?_⟩
    · rcases List.mem_append.1 hrow with hrow | hrow
      · exact hp.wellFormed row hrow
      · rw [List.mem_singleton.1 hrow]
        exact hwell
    · show ((({ s with requests := s.requests ++ [admitted id r] }.save (started x r)).insertEvent id
        (.user r.text r.requestId) now).insertEvent id (.state .running none) now).userRequests =
          (s.requests ++ [admitted id r]).map _
      rw [userRequests_insertEvent, userRequests_insertEvent, List.map_append, ← hp.logged]
      exact List.append_nil _
  · rw [not_exists] at hb
    have hb : ∀ id r, o.1 ≠ .begin id r := fun id r e => hb id ⟨r, e⟩
    refine ⟨?_, ?_, ?_⟩
    · rw [apply_requests h hb]
      exact hp.keyed
    · rw [apply_requests h hb]
      exact hp.wellFormed
    · rw [apply_requests h hb, apply_userRequests h hb, hp.logged]

theorem empty_prompts (projects : List Project) : (Store.empty projects).Prompts :=
  ⟨List.nodup_nil, by simp [empty], rfl⟩

theorem step_prompts {o : StoreOp × ℕ} (hp : s.Prompts) : (s.step o).Prompts :=
  Runs.attempt_keeps (fun _ h => apply_prompts hp h) hp

end Admitted

section Running

variable {s s' : Store} {id : String} {now : ℕ} {l : List EventRow}

/-- Only sessions there are were prompted, and a turn runs only in an active session. -/
structure Turned (s : Store) : Prop where
  keyed : s.SessionsKeyed
  known : ∀ row ∈ s.events, row.event.userRequest.isSome → ∃ x ∈ s.sessions, x.id = row.sessionId
  running : ∀ x ∈ s.sessions, s.runningTurns x.id ≤ if x.status.active then 1 else 0

theorem runningTurns_insertEvent {e : EventKind} (i : String) :
    (s.insertEvent id e now).runningTurns i =
      if id = i then turnsAfter (s.runningTurns i) { seq := 0, sessionId := id, atMs := now, event := e }
      else s.runningTurns i := by
  by_cases h : id = i <;> simp [runningTurns, List.filter_append, h, turnsAfter]

theorem turnsAfter_quiet {turns : ℕ} {row : EventRow} (h : row.event.userRequest = none) :
    turnsAfter turns row ≤ turns := by
  unfold turnsAfter
  split
  · rename_i he
    simp [he, EventKind.userRequest] at h
  · split <;> omega
  · exact le_rfl

theorem foldl_turnsAfter_quiet : ∀ {l : List EventRow} {turns : ℕ},
    (∀ row ∈ l, row.event.userRequest = none) → l.foldl turnsAfter turns ≤ turns
  | [], _, _ => le_rfl
  | row :: l, turns, h => by
    have hl : l.foldl turnsAfter (turnsAfter turns row) ≤ turnsAfter turns row := foldl_turnsAfter_quiet
      fun row hrow => h row (List.mem_cons_of_mem _ hrow)
    exact hl.trans (turnsAfter_quiet (h row List.mem_cons_self))

namespace Turned

/-- A session without a row was never prompted. -/
theorem unknown (h : s.Turned) (hid : ∀ x ∈ s.sessions, x.id ≠ id) : s.runningTurns id = 0 := by
  refine Nat.le_zero.1 (foldl_turnsAfter_quiet fun row hrow => ?_)
  obtain ⟨hrow, hrid⟩ := List.mem_filter.1 hrow
  by_contra hne
  obtain ⟨x, hx, hxid⟩ := h.known row hrow (Option.ne_none_iff_isSome.1 hne)
  exact hid x hx (hxid.trans (by simpa using hrid))

theorem of_eq (h : s.Turned) (hs : s'.sessions = s.sessions) (he : s'.events = s.events) :
    s'.Turned := by
  obtain ⟨hk, hn, hr⟩ := h
  refine ⟨by rwa [SessionsKeyed, hs], by rwa [he, hs], fun x hx => ?_⟩
  rw [hs] at hx
  have := hr x hx
  rwa [runningTurns, he]

/-- An event that is no prompt. -/
theorem insertEvent (h : s.Turned) {e : EventKind} (he : e.userRequest = none) :
    (s.insertEvent id e now).Turned := by
  refine ⟨h.keyed, fun row hrow hu => ?_, fun x hx => ?_⟩
  · rcases List.mem_append.1 hrow with hrow | hrow
    · exact h.known row hrow hu
    · rw [List.mem_singleton.1 hrow, he] at hu
      cases hu
  · have hle := h.running x hx
    rw [runningTurns_insertEvent]
    split
    · exact (turnsAfter_quiet he).trans hle
    · exact hle

theorem ids_save (h : s.SessionsKeyed) {y : Session} : (s.save y).SessionsKeyed ∧
    ∀ i, (∃ x ∈ s.sessions, x.id = i) → ∃ x ∈ (s.save y).sessions, x.id = i := by
  have hmap : (s.save y).sessions.map (·.id) = s.sessions.map (·.id) :=
    map_updateWhere (fun z hz => (of_decide_eq_true hz).symm) _
  refine ⟨by rwa [SessionsKeyed, Keyed, hmap], fun i hi => ?_⟩
  have : i ∈ s.sessions.map (·.id) := List.mem_map.2 hi
  rw [← hmap] at this
  exact List.mem_map.1 this

/-- A session's row, with other columns than its status changed. -/
theorem save (h : s.Turned) {x y : Session} (hx : s.session id = .ok x) (hid : y.id = x.id)
    (hst : y.status = x.status) : (s.save y).Turned := by
  have hmem := session_mem hx
  obtain ⟨hk, hids⟩ := ids_save (y := y) h.keyed
  refine ⟨hk, fun row hrow hu => hids _ (h.known row hrow hu), fun z hz => ?_⟩
  · obtain ⟨a, ha, rfl⟩ := mem_updateWhere.1 hz
    by_cases hay : a.id = y.id
    · obtain rfl : a = x := h.keyed.eq ha hmem.1 (hay.trans hid)
      rw [if_pos (decide_eq_true hay), hst, hid]
      exact h.running a ha
    · rw [if_neg (by simpa using hay)]
      exact h.running a ha

/-- A new status of a session, and the events `l` of it that tell. -/
theorem setStatus (h : s.Turned) {y : Session} (hy : ∃ x ∈ s.sessions, x.id = y.id)
    (he : s'.events = s.events ++ l) (hs : s'.sessions = (s.save y).sessions)
    (hl : ∀ row ∈ l, row.sessionId = y.id)
    (hr : l.foldl turnsAfter (s.runningTurns y.id) ≤ if y.status.active then 1 else 0) :
    s'.Turned := by
  obtain ⟨hk, hids⟩ := ids_save (y := y) h.keyed
  refine ⟨by rwa [SessionsKeyed, hs], fun row hrow hu => ?_, fun z hz => ?_⟩
  · rw [hs]
    rw [he] at hrow
    rcases List.mem_append.1 hrow with hrow | hrow
    · exact hids _ (h.known row hrow hu)
    · rw [hl row hrow]
      exact hids _ hy
  · have hturns : ∀ i, s'.runningTurns i =
        (l.filter (·.sessionId = i)).foldl turnsAfter (s.runningTurns i) := by
      intro i
      rw [runningTurns, he, List.filter_append, List.foldl_append, runningTurns]
    rw [hs] at hz
    obtain ⟨a, ha, rfl⟩ := mem_updateWhere.1 hz
    by_cases hay : a.id = y.id
    · rw [if_pos (decide_eq_true hay), hturns, List.filter_eq_self.2 (by simpa using hl)]
      exact hr
    · have hnone : l.filter (·.sessionId = a.id) = [] := by
        refine List.filter_eq_nil_iff.2 fun row hrow => ?_
        rw [hl row hrow]
        simpa using Ne.symm hay
      rw [if_neg (by simpa using hay), hturns, hnone]
      exact h.running a ha

theorem le_one (h : s.Turned) (id : String) : s.runningTurns id ≤ 1 := by
  by_cases hid : ∃ x ∈ s.sessions, x.id = id
  · obtain ⟨x, hx, rfl⟩ := hid
    have := h.running x hx
    split at this <;> omega
  · rw [h.unknown fun x hx hxid => hid ⟨x, hx, hxid⟩]
    exact Nat.zero_le 1

/-- A status and its event. -/
theorem state (h : s.Turned) {y : Session} (hy : ∃ x ∈ s.sessions, x.id = y.id)
    {message : Option String} :
    ((s.save y).insertEvent y.id (.state y.status message) now).Turned := by
  refine h.setStatus (y := y) hy rfl rfl (by simp) ?_
  have := h.le_one y.id
  simp only [List.foldl_cons, List.foldl_nil, turnsAfter]
  split <;> simp_all

end Turned

section

variable {r : Submission}

theorem beginTurn_turned (h : s.Turned) {new : Bool} (hb : s.beginTurn id r now = .ok (s', new)) :
    s'.Turned := by
  obtain ⟨_, rfl, _⟩ | ⟨_, _, x, hx, hactive, _, rfl⟩ := beginTurn_cases hb
  · exact h
  obtain ⟨hmem, rfl⟩ := session_mem hx
  refine h.setStatus (y := started x r) ⟨x, hmem, rfl⟩ (List.append_assoc _ _ _) rfl ?_ ?_
  · simp [started]
  · have hzero : s.runningTurns x.id = 0 := by simpa [hactive] using h.running x hmem
    simp [started, turnsAfter, hzero]

theorem event_turned (h : s.Turned) {e : EventKind} (he : e.userRequest = none)
    (hev : s.event id e now = .ok s') : s'.Turned := by
  obtain ⟨_, rows, e', rfl, he'⟩ := event_cases hev
  have h' : { s with subagents := rows }.Turned := h.of_eq rfl rfl
  refine h'.insertEvent ?_
  rcases he' with rfl | ⟨_, _, _, rfl⟩
  · exact he
  · rfl

theorem endSubagents_turned (h : s.Turned) {status : SubagentStatus}
    (hs : s.endSubagents id status now = .ok s') : s'.Turned :=
  foldlM_keeps (P := Turned) _ (fun _ _ _ _ ht hs => event_turned ht rfl hs) _ _ h hs

theorem uncertainForwarded_turned (h : s.Turned) (hu : s.uncertainForwarded id now = .ok s') :
    s'.Turned := by
  simp only [uncertainForwarded] at hu
  split at hu
  · refine event_turned ?_ rfl hu
    exact h.of_eq rfl rfl
  · obtain rfl := Except.ok.inj hu
    exact h.of_eq rfl rfl

theorem pauseQueue_turned (h : s.Turned) {reason : Option String}
    (hp : s.pauseQueue id reason = .ok s') : s'.Turned := by
  obtain ⟨_, rfl⟩ := pauseQueue_cases hp
  exact h.of_eq rfl rfl

theorem reopen_turned (h : s.Turned) (hr : s.reopen now = .ok s') : s'.Turned := by
  simp only [reopen, bind_eq_ok] at hr
  obtain ⟨s₁, h₁, s₂, h₂, s₃, h₃, h₄⟩ := hr
  have t₀ : s.pauseRestarted.Turned := h.of_eq rfl rfl
  have t₁ : s₁.Turned := by
    refine foldlM_keeps (P := Turned) _ (fun t i _ u ht hs => ?_) _ _ t₀ h₁
    simp only [quarantine, bind_eq_ok] at hs
    obtain ⟨v, hv, hs⟩ := hs
    exact pauseQueue_turned (uncertainForwarded_turned ht hv) hs
  have t₂ : s₂.Turned :=
    foldlM_keeps (P := Turned) _ (fun _ _ _ _ ht hs => endSubagents_turned ht hs) _ _ t₁ h₂
  have t₃ : s₃.Turned := by
    refine foldlM_keeps (P := Turned) _ (fun t turn _ u ht hs => ?_) _ _ t₂ h₃
    simp only [loseTurn, bind_eq_ok, Except.ok.injEq] at hs
    obtain ⟨v, hv, rfl⟩ := hs
    exact (event_turned ht rfl hv).of_eq rfl rfl
  refine foldlM_keeps (P := Turned) _ (fun t x _ u ht hs => ?_) _ _ t₃ h₄
  obtain ⟨⟨z, hz, hzid⟩, rows, e, rfl, he⟩ := event_cases hs
  obtain ⟨a, ha, rfl⟩ := mem_updateWhere.1 hz
  rcases he with rfl | ⟨_, _, hu, _⟩
  · refine (ht.state (y := { x with status := .unknown }) ⟨a, ha, ?_⟩).of_eq rfl rfl
    by_cases hax : a.id = x.id
    · exact hax
    · rwa [if_neg (by simpa using hax)] at hzid
  · cases hu

theorem apply_turned {o : StoreOp × ℕ} (h : s.Turned) (ho : s.apply o = .ok s') : s'.Turned := by
  obtain ⟨op, now⟩ := o
  cases op with
  | createSession fresh projectId agent =>
    obtain ⟨hfresh, rfl⟩ := createSession_cases ho
    have hnew : ∀ x ∈ s.sessions, x.id ≠ fresh := by simpa using hfresh
    refine ⟨h.keyed.append hnew, fun row hrow hu => ?_, fun x hx => ?_⟩
    · obtain ⟨x, hx, hid⟩ := h.known row hrow hu
      exact ⟨x, List.mem_append_left _ hx, hid⟩
    rcases List.mem_append.1 hx with hx | hx
    · exact h.running x hx
    · rw [List.mem_singleton.1 hx]
      exact (h.unknown hnew).le.trans (Nat.zero_le _)
  | archive id archived =>
    obtain ⟨_, hx, _, rfl⟩ := archiveSession_cases ho
    exact h.save hx rfl rfl
  | state id status message =>
    obtain ⟨x, hx, rfl⟩ := state_cases ho
    obtain ⟨hmem, rfl⟩ := session_mem hx
    exact h.state (y := { x with status, unread := _ }) ⟨x, hmem, rfl⟩
  | event id e =>
    refine event_turned h ?_ ho
    have := e.fromAgent
    simp only [EventKind.fromAgent, Bool.and_eq_true, Option.isNone_iff_eq_none] at this
    exact this.1
  | endSubagents id status => exact endSubagents_turned h ho
  | begin id r =>
    simp only [apply, map_eq_ok] at ho
    obtain ⟨⟨t, new⟩, ho, rfl⟩ := ho
    exact beginTurn_turned h ho
  | enqueue id r =>
    obtain ⟨_, _, _, _, _, _, rfl⟩ := enqueue_cases ho
    exact h.of_eq rfl rfl
  | edit id requestId revision text =>
    obtain ⟨_, _, _, _, _, ⟨_, _, rfl, _⟩ | ⟨_, rfl⟩⟩ := editQueued_cases ho <;>
      exact h.of_eq rfl rfl
  | reorder id expected order =>
    obtain rfl | rfl := reorderQueue_cases ho
    · exact h
    · exact h.of_eq rfl rfl
  | take id requestId revision =>
    simp only [apply, map_eq_ok] at ho
    obtain ⟨⟨t, entry⟩, ho, rfl⟩ := ho
    obtain ⟨_, _, _, _, _, _, _, rfl⟩ := takeQueued_cases ho
    exact h.of_eq rfl rfl
  | clear id =>
    obtain ⟨_, rfl⟩ := clearQueue_cases ho
    exact h.of_eq rfl rfl
  | pause id reason => exact pauseQueue_turned h ho
  | markForwarded id requestId revision =>
    obtain ⟨row, _, _, _, _, _, rfl⟩ := markForwarded_cases ho
    exact (Turned.insertEvent (h.of_eq rfl rfl) (by rfl)).of_eq rfl rfl
  | rejectForwarded id requestId reason =>
    obtain ⟨rfl, _⟩ | ⟨_, _, _, _, _, _, rfl⟩ := rejectForwarded_cases ho
    · exact h
    · refine Turned.insertEvent ?_ ?_
      · exact h.of_eq rfl rfl
      · rfl
  | consumeForwarded id requests =>
    obtain rfl := Except.ok.inj ho
    exact h.of_eq rfl rfl
  | uncertainForwarded id => exact uncertainForwarded_turned h ho
  | nativeTitle id title custom =>
    obtain rfl | ⟨x, hx, rfl⟩ := syncNativeTitle_cases ho
    · exact h
    · exact h.save hx rfl rfl
  | nativeSession id native =>
    obtain ⟨x, hx, rfl⟩ := saveNativeSession_cases ho
    exact h.save hx rfl rfl
  | saveBaseline id snapshot =>
    obtain ⟨_, rfl⟩ := saveBaseline_cases ho
    exact h.of_eq rfl rfl
  | saveTurnBaseline id requestId baseline =>
    obtain rfl | rfl := saveTurnBaseline_cases ho
    · exact h
    · exact h.of_eq rfl rfl
  | finishTurn id turn =>
    obtain rfl | rfl := finishTurn_cases ho
    · exact h
    · refine Turned.insertEvent ?_ ?_
      · exact h.of_eq rfl rfl
      · rfl
  | updateTurn id turn =>
    obtain rfl := updateTurn_cases ho
    refine Turned.insertEvent ?_ ?_
    · exact h.of_eq rfl rfl
    · rfl
  | reopen => exact reopen_turned h ho

theorem empty_turned (projects : List Project) : (Store.empty projects).Turned :=
  ⟨List.nodup_nil, by simp [empty], by simp [empty]⟩

end

/-- What holds of the requests of a database, and of the next one that comes. -/
structure Admissions (s : Store) : Prop where
  once : s.userRequests.Nodup
  prompted : s.userRequests = s.requests.map (·.id)
  known : ∀ row ∈ s.events, row.event.userRequest.isSome → ∃ x ∈ s.sessions, x.id = row.sessionId
  running : ∀ x ∈ s.sessions, s.runningTurns x.id ≤ if x.status.active then 1 else 0
  retried : ∀ id r now, admitted id r ∈ s.requests → s.beginTurn id r now = .ok (s, false)
  reused : ∀ id r now, ∀ row ∈ s.requests, row.id = r.requestId → row ≠ admitted id r →
    ∃ e, s.beginTurn id r now = .error e
  refused : ∀ id r now, ∀ x ∈ s.sessions, x.id = id → x.status.active ∨ x.archived →
    ∀ t new, s.beginTurn id r now = .ok (t, new) → t = s ∧ new = false

/-- Whatever is done to a database, a request is admitted once and prompts once, in the order of its
admission. A retry of it changes nothing, and nothing else goes under its id. A session has a running turn
only while it is active, and only one; an active or an archived session is not prompted. -/
theorem admissions_kept (projects : List Project) (ops : List (StoreOp × ℕ)) :
    ((Store.empty projects).after ops).Admissions := by
  have hrun : ((Store.empty projects).after ops).Prompts ∧ ((Store.empty projects).after ops).Turned :=
    Runs.run_keeps (P := fun s : Store => s.Prompts ∧ s.Turned)
      ⟨empty_prompts projects, empty_turned projects⟩
      (fun s o h => ⟨step_prompts h.1, Runs.attempt_keeps (fun _ ho => apply_turned h.2 ho) h.2⟩) ops
  generalize (Store.empty projects).after ops = s at hrun
  obtain ⟨hp, ht⟩ := hrun
  refine { once := ?_, prompted := hp.logged, known := ht.known, running := ht.running, retried := ?_
           reused := ?_, refused := ?_ }
  · rw [hp.logged]
    exact hp.keyed
  · intro id r now h
    rw [beginTurn, hp.alreadyAccepted h]
    rfl
  · intro id r now row hrow hid hne
    obtain ⟨e, he⟩ := hp.alreadyAccepted_error hrow hid hne
    refine ⟨e, ?_⟩
    rw [beginTurn, he]
    rfl
  · intro id r now x hx hid hbusy t new h
    obtain ⟨hnew, hsame, -⟩ | ⟨-, -, y, hy, hactive, harchived, -⟩ := beginTurn_cases h
    · exact ⟨hsame, hnew⟩
    · obtain ⟨hmem, hyid⟩ := session_mem hy
      obtain rfl := ht.keyed.eq hx hmem (hid.trans hyid.symm)
      simp [hactive, harchived] at hbusy

end Running

end Store

end LatteWork
