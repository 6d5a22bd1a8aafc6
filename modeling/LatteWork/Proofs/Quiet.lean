import Mathlib.Data.List.Dedup
import LatteWork.Proofs.Frame

/-!
# Quiet operations

Most operations leave requests and the queue alone and log only what an agent may log: they move
a status, append an event, or keep a snapshot. Opening the database is quiet too, except that it
gives up on every hand-off.
-/

namespace LatteWork

open Fallible Table

namespace Store

/-- The log grew by rows numbered on from the last one, with events in `P`. -/
def Grew (P : EventKind → Prop) (s t : Store) : Prop :=
  ∃ l, t.events = s.events ++ l ∧ l.map (·.seq) = List.range' (s.lastSeq + 1) l.length ∧
    t.lastSeq = s.lastSeq + l.length ∧ ∀ row ∈ l, P row.event

namespace Grew

variable {P Q : EventKind → Prop} {s t u : Store}

theorem of_eq (he : t.events = s.events) (hl : t.lastSeq = s.lastSeq) : Grew P s t :=
  ⟨[], by simp [he], rfl, by simp [hl], by simp⟩

theorem refl (s : Store) : Grew P s s := of_eq rfl rfl

theorem trans : Grew P s t → Grew P t u → Grew P s u := by
  rintro ⟨l, hl, hseq, hlast, hP⟩ ⟨m, hm, hseq', hlast', hP'⟩
  refine ⟨l ++ m, by rw [hm, hl, List.append_assoc], ?_, ?_, fun row hrow => ?_⟩
  · rw [List.map_append, hseq, hseq', hlast, List.length_append, ← List.range'_append_1]
    congr 2
    omega
  · rw [hlast', hlast, List.length_append, Nat.add_assoc]
  · rcases List.mem_append.1 hrow with h | h
    · exact hP row h
    · exact hP' row h

theorem insertEvent {id : String} {e : EventKind} {now : ℕ} (h : Grew P s t) (he : P e) :
    Grew P s (t.insertEvent id e now) :=
  h.trans ⟨[_], rfl, rfl, rfl, by simpa using he⟩

theorem mono (h : Grew P s t) (hPQ : ∀ e, P e → Q e) : Grew Q s t := by
  obtain ⟨l, hl, hseq, hlast, hP⟩ := h
  exact ⟨l, hl, hseq, hlast, fun row hrow => hPQ _ (hP row hrow)⟩

end Grew

/-- What was appended to the log is neither a prompt nor a hand-off. -/
abbrev Logged (s t : Store) : Prop := Grew (fun e => e.fromAgent = true) s t

/-- The prompts in the log, by request. -/
def userRequests (s : Store) : List String := s.events.filterMap fun row => row.event.userRequest

/-- The hand-offs in the log, by request. -/
def sentRequests (s : Store) : List String := s.events.filterMap fun row => row.event.sentRequest

theorem Grew.userRequests {s t : Store} (h : Logged s t) : t.userRequests = s.userRequests := by
  obtain ⟨l, hl, _, _, hl'⟩ := h
  have hnone : l.filterMap (fun row => row.event.userRequest) = [] := by
    refine List.filterMap_eq_nil_iff.2 fun row hrow => ?_
    have := hl' row hrow
    simp only [EventKind.fromAgent, Bool.and_eq_true, Option.isNone_iff_eq_none] at this
    exact this.1
  rw [Store.userRequests, hl, List.filterMap_append, hnone, List.append_nil, Store.userRequests]

theorem Grew.sentRequests {s t : Store} (h : Logged s t) : t.sentRequests = s.sentRequests := by
  obtain ⟨l, hl, _, _, hl'⟩ := h
  have hnone : l.filterMap (fun row => row.event.sentRequest) = [] := by
    refine List.filterMap_eq_nil_iff.2 fun row hrow => ?_
    have := hl' row hrow
    simp only [EventKind.fromAgent, Bool.and_eq_true, Option.isNone_iff_eq_none] at this
    exact this.2
  rw [Store.sentRequests, hl, List.filterMap_append, hnone, List.append_nil, Store.sentRequests]

def SessionsKeyed (s : Store) : Prop := Keyed Session.id s.sessions

/-- The sessions and their archive marks. -/
def archiveMarks (s : Store) : List (String × Bool) := s.sessions.map fun x => (x.id, x.archived)

theorem SessionsKeyed.of_ids {s t : Store} (h : s.SessionsKeyed)
    (ht : t.sessions.map (·.id) = s.sessions.map (·.id)) : t.SessionsKeyed := by
  unfold SessionsKeyed Keyed
  rw [ht]
  exact h

/-- Requests, queue and archive marks are as they were, and the log grew quietly. -/
structure Quiet (s t : Store) : Prop where
  requests : t.requests = s.requests
  messageQueue : t.messageQueue = s.messageQueue
  lastPosition : t.lastPosition = s.lastPosition
  ids : t.sessions.map (·.id) = s.sessions.map (·.id)
  archived : s.SessionsKeyed → t.archiveMarks = s.archiveMarks
  logged : Logged s t

namespace Quiet

theorem refl (s : Store) : Quiet s s := ⟨rfl, rfl, rfl, rfl, fun _ => rfl, .refl s⟩

theorem trans {s t u : Store} (h : Quiet s t) (h' : Quiet t u) : Quiet s u :=
  ⟨h'.requests.trans h.requests, h'.messageQueue.trans h.messageQueue,
    h'.lastPosition.trans h.lastPosition, h'.ids.trans h.ids,
    fun hk => (h'.archived (hk.of_ids h.ids)).trans (h.archived hk), h.logged.trans h'.logged⟩

theorem insertEvent {s t : Store} {id : String} {e : EventKind} {now : ℕ} (h : Quiet s t)
    (he : e.fromAgent = true) : Quiet s (t.insertEvent id e now) :=
  ⟨h.requests, h.messageQueue, h.lastPosition, h.ids, h.archived, h.logged.insertEvent he⟩

/-- Overwriting a session's row is quiet when the row keeps its mark. -/
theorem save {s : Store} {y : Session}
    (hy : s.SessionsKeyed → (y.id, y.archived) ∈ s.archiveMarks) : Quiet s (s.save y) := by
  refine ⟨rfl, rfl, rfl, map_updateWhere (fun z hz => ?_) _, fun hk => ?_, .of_eq rfl rfl⟩
  · exact (of_decide_eq_true hz).symm
  obtain ⟨x, hx, hm⟩ := List.mem_map.1 (hy hk)
  obtain ⟨hid, harch⟩ := Prod.mk.inj hm
  simp only [archiveMarks, Store.save, updateWhere, List.map_map]
  refine List.map_congr_left fun z hz => ?_
  by_cases hzid : z.id = y.id
  · obtain rfl : z = x := Keyed.eq hk hz hx (hzid.trans hid.symm)
    simp [hid, harch]
  · simp [hzid]

/-- A row that was just read, with other columns changed. -/
theorem save_read {s : Store} {id : String} {x y : Session} (hx : s.session id = .ok x)
    (hid : y.id = x.id) (harch : y.archived = x.archived) : Quiet s (s.save y) :=
  save fun _ => List.mem_map.2 ⟨x, (session_mem hx).1, by rw [hid, harch]⟩

end Quiet

section

variable {s s' : Store} {id : String} {now : ℕ}

theorem state_quiet {status : Status} {message : Option String}
    (h : s.state id status message now = .ok s') : Quiet s s' := by
  obtain ⟨x, hx, rfl⟩ := state_cases h
  refine (Quiet.save_read hx ?_ ?_).insertEvent ?_ <;> rfl

theorem syncNativeTitle_quiet {title : String} {custom : Bool}
    (h : s.syncNativeTitle id title custom = .ok s') : Quiet s s' := by
  obtain rfl | ⟨x, hx, rfl⟩ := syncNativeTitle_cases h
  · exact .refl _
  · exact .save_read hx rfl rfl

theorem saveNativeSession_quiet {native : String} (h : s.saveNativeSession id native = .ok s') :
    Quiet s s' := by
  obtain ⟨x, hx, rfl⟩ := saveNativeSession_cases h
  exact .save_read hx rfl rfl

theorem saveBaseline_quiet {snapshot : Snapshot} (h : s.saveBaseline id snapshot = .ok s') :
    Quiet s s' := by
  obtain ⟨rows, rfl⟩ := saveBaseline_cases h
  exact ⟨rfl, rfl, rfl, rfl, fun _ => rfl, .of_eq rfl rfl⟩

theorem event_quiet {e : EventKind} (he : e.fromAgent = true) (h : s.event id e now = .ok s') :
    Quiet s s' := by
  obtain ⟨_, rows, e', rfl, he'⟩ := event_cases h
  have : e'.fromAgent = true := by
    rcases he' with rfl | ⟨u, v, rfl, rfl⟩
    · exact he
    · rfl
  exact Quiet.insertEvent ⟨rfl, rfl, rfl, rfl, fun _ => rfl, .of_eq rfl rfl⟩ this

theorem endSubagents_quiet {status : SubagentStatus}
    (h : s.endSubagents id status now = .ok s') : Quiet s s' :=
  foldlM_keeps (P := Quiet s) _ (fun _ _ _ _ hq hs => hq.trans (event_quiet rfl hs)) _ _ (.refl s) h

theorem pauseQueue_quiet {reason : Option String} (h : s.pauseQueue id reason = .ok s') :
    Quiet s s' := by
  obtain ⟨_, rfl⟩ := pauseQueue_cases h
  exact ⟨rfl, rfl, rfl, rfl, fun _ => rfl, .of_eq rfl rfl⟩

theorem saveTurnBaseline_quiet {requestId : String} {baseline : Snapshot}
    (h : s.saveTurnBaseline id requestId baseline = .ok s') : Quiet s s' := by
  obtain rfl | rfl := saveTurnBaseline_cases h
  · exact .refl _
  · exact ⟨rfl, rfl, rfl, rfl, fun _ => rfl, .of_eq rfl rfl⟩

theorem finishTurn_quiet {turn : FrozenTurn} (h : s.finishTurn id turn now = .ok s') :
    Quiet s s' := by
  obtain rfl | rfl := finishTurn_cases h
  · exact .refl _
  · exact Quiet.insertEvent ⟨rfl, rfl, rfl, rfl, fun _ => rfl, .of_eq rfl rfl⟩ rfl

theorem updateTurn_quiet {turn : FrozenTurn} (h : s.updateTurn id turn now = .ok s') :
    Quiet s s' := by
  obtain rfl := updateTurn_cases h
  exact Quiet.insertEvent ⟨rfl, rfl, rfl, rfl, fun _ => rfl, .of_eq rfl rfl⟩ rfl

theorem loseTurn_quiet {turn : String × String} (h : loseTurn now s turn = .ok s') :
    Quiet s s' := by
  simp only [loseTurn, bind_eq_ok, Except.ok.injEq] at h
  obtain ⟨t, ht, rfl⟩ := h
  exact (event_quiet rfl ht).trans ⟨rfl, rfl, rfl, rfl, fun _ => rfl, .of_eq rfl rfl⟩

theorem interrupt_quiet {x : Session} (hx : s.SessionsKeyed → (x.id, x.archived) ∈ s.archiveMarks)
    (h : interrupt now s x = .ok s') : Quiet s s' := by
  unfold interrupt at h
  refine (Quiet.save ?_).trans (event_quiet ?_ h)
  · exact hx
  · rfl

end

theorem apply_quiet {s s' : Store} {o : StoreOp × ℕ} (ho : o.1.quiet = true)
    (h : s.apply o = .ok s') : Quiet s s' := by
  obtain ⟨op, now⟩ := o
  cases op with
  | state id status message => exact state_quiet h
  | event id e => exact event_quiet e.fromAgent h
  | endSubagents id status => exact endSubagents_quiet h
  | pause id reason => exact pauseQueue_quiet h
  | nativeTitle id title custom => exact syncNativeTitle_quiet h
  | nativeSession id native => exact saveNativeSession_quiet h
  | saveBaseline id snapshot => exact saveBaseline_quiet h
  | saveTurnBaseline id requestId baseline => exact saveTurnBaseline_quiet h
  | finishTurn id turn => exact finishTurn_quiet h
  | updateTurn id turn => exact updateTurn_quiet h
  | _ => cases ho

/-- Every hand-off is given up: what opening the database does to the queue. -/
def giveUp (rows : List QueueRow) : List QueueRow :=
  updateWhere (fun row => row.status = .forwarded) (fun row => { row with status := .uncertain })
    rows

/-- Opening the database is quiet but for the hand-offs it gives up. -/
structure Reopened (s t : Store) : Prop where
  requests : t.requests = s.requests
  messageQueue : t.messageQueue = giveUp s.messageQueue
  lastPosition : t.lastPosition = s.lastPosition
  ids : t.sessions.map (·.id) = s.sessions.map (·.id)
  archived : s.SessionsKeyed → t.archiveMarks = s.archiveMarks
  logged : Logged s t

/-- The queue with the hand-offs of some sessions given up. -/
def giveUpIn (ids : List String) (rows : List QueueRow) : List QueueRow :=
  updateWhere (fun row => row.sessionId ∈ ids && row.status = .forwarded)
    (fun row => { row with status := .uncertain }) rows

theorem giveUpIn_cons (id : String) (ids : List String) (rows : List QueueRow) :
    giveUpIn ids (updateWhere (QueueRow.forwardedIn id)
      (fun row => { row with status := .uncertain }) rows) = giveUpIn (id :: ids) rows := by
  simp only [giveUpIn, updateWhere, List.map_map]
  refine List.map_congr_left fun row _ => ?_
  by_cases hf : row.status = .forwarded <;> by_cases hid : row.sessionId = id <;>
    simp [QueueRow.forwardedIn, hf, hid]

theorem giveUpIn_all (rows : List QueueRow) :
    giveUpIn ((rows.filter (·.status = .forwarded)).map (·.sessionId)).dedup rows = giveUp rows := by
  simp only [giveUpIn, giveUp, updateWhere]
  refine List.map_congr_left fun row hrow => ?_
  by_cases hf : row.status = .forwarded
  · have hmem : row.sessionId ∈
        ((rows.filter (·.status = .forwarded)).map (·.sessionId)).dedup :=
      List.mem_dedup.2 (List.mem_map.2 ⟨row, List.mem_filter.2 ⟨hrow, by simpa using hf⟩, rfl⟩)
    simp only [hmem, hf, decide_true, Bool.and_self, if_true]
  · simp [hf]

theorem uncertainForwarded_queue {s s' : Store} {id : String} {now : ℕ}
    (h : s.uncertainForwarded id now = .ok s') :
    s'.messageQueue = updateWhere (QueueRow.forwardedIn id)
      (fun row => { row with status := .uncertain }) s.messageQueue ∧
      s'.requests = s.requests ∧ s'.lastPosition = s.lastPosition ∧ s'.sessions = s.sessions ∧
      Logged s s' := by
  obtain ⟨rfl, hnone⟩ | ⟨_, _, rfl⟩ := uncertainForwarded_cases h
  · exact ⟨(updateWhere_of_none hnone).symm, rfl, rfl, rfl, .refl _⟩
  · exact ⟨rfl, rfl, rfl, rfl, Grew.insertEvent (.of_eq rfl rfl) (by rfl)⟩

/-- The first loop of `reopen`. -/
theorem quarantine_fold {now : ℕ} : ∀ (ids : List String) {s s' : Store},
    ids.foldlM (quarantine now) s = .ok s' →
      s'.messageQueue = giveUpIn ids s.messageQueue ∧ s'.requests = s.requests ∧
        s'.lastPosition = s.lastPosition ∧ s'.sessions = s.sessions ∧ Logged s s'
  | [], s, s', h => by
    simp only [List.foldlM_nil, pure_eq_ok] at h
    subst h
    exact ⟨(updateWhere_of_none (by simp)).symm, rfl, rfl, rfl, .refl s⟩
  | id :: ids, s, s', h => by
    simp only [List.foldlM_cons, quarantine, bind_eq_ok] at h
    obtain ⟨t, ⟨u, hu, ht⟩, h⟩ := h
    obtain ⟨hq, hr, hp, hss, hl⟩ := uncertainForwarded_queue hu
    obtain ⟨_, rfl⟩ := pauseQueue_cases ht
    obtain ⟨hq', hr', hp', hss', hl'⟩ := quarantine_fold ids h
    refine ⟨?_, hr'.trans hr, hp'.trans hp, hss'.trans hss, hl.trans (.trans ?_ hl')⟩
    · rw [hq', ← giveUpIn_cons, ← hq]
      rfl
    · exact .of_eq rfl rfl

theorem reopen_cases {s s' : Store} {now : ℕ} (h : s.reopen now = .ok s') : Reopened s s' := by
  simp only [reopen, bind_eq_ok] at h
  obtain ⟨s₁, h₁, s₂, h₂, s₃, h₃, h₄⟩ := h
  obtain ⟨hq, hr, hp, hss, hl⟩ := quarantine_fold _ h₁
  have q₂ : Quiet s₁ s₂ :=
    foldlM_keeps (P := Quiet s₁) _ (fun _ _ _ _ hk hs => hk.trans (endSubagents_quiet hs)) _ _
      (.refl s₁) h₂
  have q₃ : Quiet s₁ s₃ :=
    foldlM_keeps (P := Quiet s₁) _ (fun _ _ _ _ hk hs => hk.trans (loseTurn_quiet hs)) _ _ q₂ h₃
  -- the sessions to interrupt were read before the loop and are in the table throughout
  have q₄ : Quiet s₁ s' := by
    refine q₃.trans ?_
    refine foldlM_keeps (P := Quiet s₃) _ (fun t x hx u hk hs => ?_) _ _ (.refl s₃) h₄
    refine hk.trans (interrupt_quiet (fun ht => ?_) hs)
    have hx' : x ∈ s₃.sessions := List.mem_reverse.1 (List.mem_filter.1 hx).1
    rw [hk.archived (ht.of_ids hk.ids.symm)]
    exact List.mem_map.2 ⟨x, hx', rfl⟩
  refine ⟨q₄.requests.trans hr, ?_, q₄.lastPosition.trans hp, ?_, fun hk => ?_,
    hl.trans q₄.logged⟩
  · rw [q₄.messageQueue, hq]
    exact giveUpIn_all s.messageQueue
  · rw [q₄.ids, hss]
    rfl
  · have hs₁ : s₁.sessions = s.sessions := hss
    have hm : s₁.archiveMarks = s.archiveMarks := by rw [archiveMarks, hs₁, archiveMarks]
    exact (q₄.archived (hk.of_ids (by rw [hs₁]))).trans hm

end Store

end LatteWork
