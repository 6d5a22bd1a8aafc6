import LatteWork.Proofs.StoreCases

/-!
# What an operation leaves alone

Which tables each operation writes, as a table of its own: the rest of the database is as it was.
-/

namespace LatteWork

open Fallible Table

/-- The tables of the database, the two logs with their counters. -/
inductive Part where
  | sessions | subagents | events | requests | messageQueue | messageQueueState | turnChanges
  | taskBaselines
  deriving DecidableEq

/-- The table is the same in two databases. -/
def Part.Same (s t : Store) : Part → Prop
  | sessions => t.sessions = s.sessions
  | subagents => t.subagents = s.subagents
  | events => t.events = s.events ∧ t.lastSeq = s.lastSeq
  | requests => t.requests = s.requests
  | messageQueue => t.messageQueue = s.messageQueue ∧ t.lastPosition = s.lastPosition
  | messageQueueState => t.messageQueueState = s.messageQueueState
  | turnChanges => t.turnChanges = s.turnChanges
  | taskBaselines => t.taskBaselines = s.taskBaselines

/-- The tables an operation writes. -/
def StoreOp.writes : StoreOp → List Part
  | .createSession .. | .archive .. | .nativeTitle .. | .nativeSession .. => [.sessions]
  | .state .. => [.sessions, .events]
  | .event .. | .endSubagents .. => [.subagents, .events]
  | .begin .. => [.sessions, .events, .requests, .messageQueue]
  | .enqueue .. | .clear .. => [.messageQueue, .messageQueueState]
  | .edit .. | .reorder .. | .take .. | .consumeForwarded .. => [.messageQueue]
  | .pause .. => [.messageQueueState]
  | .markForwarded .. => [.messageQueue, .events, .turnChanges]
  | .rejectForwarded .. => [.messageQueue, .messageQueueState, .events]
  | .uncertainForwarded .. => [.messageQueue, .events]
  | .saveBaseline .. => [.taskBaselines]
  | .saveTurnBaseline .. => [.turnChanges]
  | .finishTurn .. | .updateTurn .. => [.turnChanges, .events]
  | .reopen =>
    [.sessions, .subagents, .events, .messageQueue, .messageQueueState, .turnChanges]

namespace Part

variable {s t u : Store} {p : Part}

theorem same_refl (s : Store) (p : Part) : p.Same s s := by
  cases p <;> simp [Same]

theorem Same.trans (h : p.Same s t) (h' : p.Same t u) : p.Same s u := by
  cases p <;> simp_all [Same]

end Part

namespace Store

variable {s s' : Store} {id : String} {now : ℕ} {p : Part}

/-- The children after an event. -/
def childrenAfter (s : Store) (id : String) (now : ℕ) : EventKind → List SubagentRow
  | .subagent u => (s.recordSubagent id u now).1.subagents
  | _ => s.subagents

theorem event_children {e : EventKind} (h : s.event id e now = .ok s') :
    (∃ x ∈ s.sessions, x.id = id) ∧ s'.subagents = s.childrenAfter id now e := by
  unfold event at h
  split at h
  · simp only [bind_eq_ok, Except.ok.injEq] at h
    obtain ⟨_, _, _, href, rfl⟩ := h
    exact ⟨referenceSession_ok href, rfl⟩
  · simp only [bind_eq_ok, Except.ok.injEq] at h
    obtain ⟨_, href, rfl⟩ := h
    exact ⟨referenceSession_ok href, rfl⟩
  · rename_i hsub
    simp only [bind_eq_ok, Except.ok.injEq] at h
    obtain ⟨_, href, rfl⟩ := h
    refine ⟨referenceSession_ok href, ?_⟩
    cases e <;> first | rfl | exact absurd rfl (hsub _)

theorem event_frame {e : EventKind} (h : s.event id e now = .ok s')
    (hp : p ∉ [Part.subagents, .events]) : p.Same s s' := by
  obtain ⟨_, rows, e', rfl, _⟩ := event_cases h
  cases p <;> first | exact rfl | exact ⟨rfl, rfl⟩ | exact absurd (by decide) hp

theorem endSubagents_frame {status : SubagentStatus} (h : s.endSubagents id status now = .ok s')
    (hp : p ∉ [Part.subagents, .events]) : p.Same s s' :=
  foldlM_keeps (P := p.Same s) _ (fun _ _ _ _ hq hs => hq.trans (event_frame hs hp)) _ _
    (p.same_refl s) h

theorem uncertainForwarded_children (h : s.uncertainForwarded id now = .ok s') :
    s'.subagents = s.subagents := by
  simp only [uncertainForwarded] at h
  split at h
  · exact (event_children h).2
  · obtain rfl := Except.ok.inj h
    rfl

theorem uncertainForwarded_frame (h : s.uncertainForwarded id now = .ok s')
    (hp : p ∉ [Part.messageQueue, .events]) : p.Same s s' := by
  have hc := uncertainForwarded_children h
  obtain ⟨rfl, _⟩ | ⟨_, _, rfl⟩ := uncertainForwarded_cases h
  · exact p.same_refl _
  · cases p <;> first | exact rfl | exact hc | exact absurd (by decide) hp

theorem pauseQueue_frame {reason : Option String} (h : s.pauseQueue id reason = .ok s')
    (hp : p ≠ .messageQueueState) : p.Same s s' := by
  obtain ⟨_, rfl⟩ := pauseQueue_cases h
  cases p <;> first | exact rfl | exact ⟨rfl, rfl⟩ | exact absurd rfl hp

theorem quarantine_frame (h : quarantine now s id = .ok s')
    (hp : p ∉ [Part.messageQueue, .messageQueueState, .events]) : p.Same s s' := by
  simp only [quarantine, bind_eq_ok] at h
  obtain ⟨t, ht, h⟩ := h
  refine (uncertainForwarded_frame ht ?_).trans (pauseQueue_frame h ?_)
  · exact fun hm => hp (by revert hm; cases p <;> decide)
  · rintro rfl
    exact hp (by decide)

theorem loseTurn_frame {turn : String × String} (h : loseTurn now s turn = .ok s')
    (hp : p ∉ [Part.turnChanges, .events]) : p.Same s s' := by
  simp only [loseTurn, bind_eq_ok, Except.ok.injEq] at h
  obtain ⟨t, ht, rfl⟩ := h
  have hc := (event_children ht).2
  obtain ⟨_, rows, e', rfl, _⟩ := event_cases ht
  cases p <;> first | exact rfl | exact ⟨rfl, rfl⟩ | exact hc | exact absurd (by decide) hp

theorem interrupt_frame {x : Session} (h : interrupt now s x = .ok s')
    (hp : p ∉ [Part.sessions, .events]) : p.Same s s' := by
  have hc := (event_children h).2
  obtain ⟨_, rows, e', rfl, _⟩ := event_cases h
  cases p <;> first | exact rfl | exact ⟨rfl, rfl⟩ | exact hc | exact absurd (by decide) hp

theorem foldlM_frame {α : Type} {f : Store → α → Except String Store}
    (hf : ∀ s s' a, f s a = .ok s' → p.Same s s') {l : List α} (h : l.foldlM f s = .ok s') :
    p.Same s s' :=
  foldlM_keeps (P := p.Same s) _ (fun _ _ _ _ hq hs => hq.trans (hf _ _ _ hs)) _ _ (p.same_refl s) h

theorem reopen_frame (h : s.reopen now = .ok s') (hp : p = .requests ∨ p = .taskBaselines) :
    p.Same s s' := by
  simp only [reopen, bind_eq_ok] at h
  obtain ⟨s₁, h₁, s₂, h₂, s₃, h₃, h₄⟩ := h
  have h₀ : p.Same s s.pauseRestarted := by
    rcases hp with rfl | rfl <;> exact rfl
  have q₁ : p.Same s.pauseRestarted s₁ :=
    foldlM_frame (fun _ _ _ h => quarantine_frame h (by rcases hp with rfl | rfl <;> decide)) h₁
  have q₂ : p.Same s₁ s₂ :=
    foldlM_frame (fun _ _ _ h => endSubagents_frame h (by rcases hp with rfl | rfl <;> decide)) h₂
  have q₃ : p.Same s₂ s₃ :=
    foldlM_frame (fun _ _ _ h => loseTurn_frame h (by rcases hp with rfl | rfl <;> decide)) h₃
  have q₄ : p.Same s₃ s' :=
    foldlM_frame (fun _ _ _ h => interrupt_frame h (by rcases hp with rfl | rfl <;> decide)) h₄
  exact (((h₀.trans q₁).trans q₂).trans q₃).trans q₄

/-- An operation leaves every table alone that it does not write. -/
theorem apply_frame {o : StoreOp × ℕ} (h : s.apply o = .ok s') (hp : p ∉ o.1.writes) :
    p.Same s s' := by
  obtain ⟨op, now⟩ := o
  cases op with
  | createSession fresh projectId agent =>
    obtain ⟨_, rfl⟩ := createSession_cases h
    cases p <;> first | exact rfl | exact ⟨rfl, rfl⟩ | exact absurd (by simp [StoreOp.writes]) hp
  | archive id archived =>
    obtain ⟨_, _, _, rfl⟩ := archiveSession_cases h
    cases p <;> first | exact rfl | exact ⟨rfl, rfl⟩ | exact absurd (by simp [StoreOp.writes]) hp
  | state id status message =>
    obtain ⟨_, _, rfl⟩ := state_cases h
    cases p <;> first | exact rfl | exact ⟨rfl, rfl⟩ | exact absurd (by simp [StoreOp.writes]) hp
  | event id e => exact event_frame h hp
  | endSubagents id status => exact endSubagents_frame h hp
  | begin id r =>
    simp only [apply, map_eq_ok] at h
    obtain ⟨⟨t, new⟩, h, rfl⟩ := h
    obtain ⟨_, rfl, _⟩ | ⟨_, _, x, hx, _, _, rfl⟩ := beginTurn_cases h
    · exact p.same_refl _
    · cases p <;> first | exact rfl | exact absurd (by simp [StoreOp.writes]) hp
  | enqueue id r =>
    obtain ⟨_, _, _, _, _, _, rfl⟩ := enqueue_cases h
    cases p <;> first | exact rfl | exact ⟨rfl, rfl⟩ | exact absurd (by simp [StoreOp.writes]) hp
  | edit id requestId revision text =>
    obtain ⟨_, _, _, _, _, ⟨_, _, rfl, _⟩ | ⟨_, rfl⟩⟩ := editQueued_cases h <;>
      cases p <;> first | exact rfl | exact ⟨rfl, rfl⟩ | exact absurd (by simp [StoreOp.writes]) hp
  | reorder id expected order =>
    obtain rfl | rfl := reorderQueue_cases h
    · exact p.same_refl _
    · cases p <;> first | exact rfl | exact ⟨rfl, rfl⟩ | exact absurd (by simp [StoreOp.writes]) hp
  | take id requestId revision =>
    simp only [apply, map_eq_ok] at h
    obtain ⟨⟨t, entry⟩, h, rfl⟩ := h
    obtain ⟨_, _, _, _, _, _, _, rfl⟩ := takeQueued_cases h
    cases p <;> first | exact rfl | exact ⟨rfl, rfl⟩ | exact absurd (by simp [StoreOp.writes]) hp
  | clear id =>
    obtain ⟨_, rfl⟩ := clearQueue_cases h
    cases p <;> first | exact rfl | exact ⟨rfl, rfl⟩ | exact absurd (by simp [StoreOp.writes]) hp
  | pause id reason =>
    refine pauseQueue_frame h ?_
    rintro rfl
    exact hp (by simp [StoreOp.writes])
  | markForwarded id requestId revision =>
    obtain ⟨_, _, _, _, _, _, rfl⟩ := markForwarded_cases h
    cases p <;> first | exact rfl | exact absurd (by simp [StoreOp.writes]) hp
  | rejectForwarded id requestId reason =>
    obtain ⟨rfl, _⟩ | ⟨_, _, _, _, _, _, rfl⟩ := rejectForwarded_cases h
    · exact p.same_refl _
    · cases p <;> first | exact rfl | exact absurd (by simp [StoreOp.writes]) hp
  | consumeForwarded id requests =>
    obtain rfl := Except.ok.inj h
    cases p <;> first | exact rfl | exact ⟨rfl, rfl⟩ | exact absurd (by simp [StoreOp.writes]) hp
  | uncertainForwarded id => exact uncertainForwarded_frame h hp
  | nativeTitle id title custom =>
    obtain rfl | ⟨_, _, rfl⟩ := syncNativeTitle_cases h
    · exact p.same_refl _
    · cases p <;> first | exact rfl | exact ⟨rfl, rfl⟩ | exact absurd (by simp [StoreOp.writes]) hp
  | nativeSession id native =>
    obtain ⟨_, _, rfl⟩ := saveNativeSession_cases h
    cases p <;> first | exact rfl | exact ⟨rfl, rfl⟩ | exact absurd (by simp [StoreOp.writes]) hp
  | saveBaseline id snapshot =>
    obtain ⟨_, rfl⟩ := saveBaseline_cases h
    cases p <;> first | exact rfl | exact ⟨rfl, rfl⟩ | exact absurd (by simp [StoreOp.writes]) hp
  | saveTurnBaseline id requestId baseline =>
    obtain rfl | rfl := saveTurnBaseline_cases h
    · exact p.same_refl _
    · cases p <;> first | exact rfl | exact ⟨rfl, rfl⟩ | exact absurd (by simp [StoreOp.writes]) hp
  | finishTurn id turn =>
    obtain rfl | rfl := finishTurn_cases h
    · exact p.same_refl _
    · cases p <;> first | exact rfl | exact ⟨rfl, rfl⟩ | exact absurd (by simp [StoreOp.writes]) hp
  | updateTurn id turn =>
    obtain rfl := updateTurn_cases h
    cases p <;> first | exact rfl | exact ⟨rfl, rfl⟩ | exact absurd (by simp [StoreOp.writes]) hp
  | reopen =>
    refine reopen_frame h ?_
    cases p <;> simp_all [StoreOp.writes]

end Store

end LatteWork
