import LatteWork.Proofs.Frame
import LatteWork.Proofs.Quiet

/-!
# How a session's row moves

What one operation on the database does with the rows of the sessions, said once: each row stays, or
is rewritten with the columns the operation sets, or the operation adds a row behind them.
-/

namespace LatteWork

open Fallible Table

/-- What one operation may do with a session's row. -/
inductive SessionMoves (op : StoreOp) : Session → Session → Prop where
  | stay (x : Session) : SessionMoves op x x
  | archived (x : Session) (archived : Bool) (h : op = .archive x.id archived) :
    SessionMoves op x { x with archived, pinnedAt := if archived then none else x.pinnedAt }
  | moved (x : Session) (status : Status) (message : Option String)
    (h : op = .state x.id status message) :
    SessionMoves op x { x with
      unread := x.unread || (x.status.active && Store.terminal status)
      status }
  | started (x : Session) (r : Submission) (h : op = .begin x.id r) :
    SessionMoves op x (Store.started x r)
  | titled (x : Session) (title : String) (custom : Bool) (h : op = .nativeTitle x.id title custom) :
    SessionMoves op x { x with title, customTitle := x.customTitle || custom }
  | native (x : Session) (native : String) (h : op = .nativeSession x.id native) :
    SessionMoves op x { x with nativeId := some native }
  | lost (x : Session) (h : op = .reopen) (ha : x.status.active = true) :
    SessionMoves op x { x with status := .unknown }

namespace SessionMoves

variable {op : StoreOp} {x y : Session}

theorem id (h : SessionMoves op x y) : y.id = x.id := by cases h <;> rfl

theorem projectId (h : SessionMoves op x y) : y.projectId = x.projectId := by cases h <;> rfl

theorem createdAt (h : SessionMoves op x y) : y.createdAt = x.createdAt := by cases h <;> rfl

end SessionMoves

namespace Store

variable {s t : Store} {id : String} {now : ℕ} {op : StoreOp}

/-- A row that was read and is written back moves, and the others stay. -/
theorem save_moves (hk : s.SessionsKeyed) {x y : Session} (hx : x ∈ s.sessions)
    (hid : y.id = x.id) (hxy : SessionMoves op x y) :
    List.Forall₂ (SessionMoves op) s.sessions (s.save y).sessions := by
  refine forall₂_updateWhere SessionMoves.stay fun z hz hzy => ?_
  obtain rfl : z = x := Keyed.eq hk hz hx ((of_decide_eq_true hzy).trans hid)
  exact hxy

theorem same_moves (h : Part.Same s t .sessions) :
    List.Forall₂ (SessionMoves op) s.sessions t.sessions := by
  have h : t.sessions = s.sessions := h
  rw [h]
  exact List.forall₂_same.2 fun x _ => .stay x

/-- The last loop of `open`. -/
theorem interrupts_moves (hk : s.SessionsKeyed) {l : List Session}
    (hl : ∀ x ∈ l, x ∈ s.sessions ∧ x.status.active = true)
    (h : l.foldlM (interrupt now) s = .ok t) :
    List.Forall₂ (SessionMoves .reopen) s.sessions t.sessions := by
  have hmoved : List.Forall₂
      (fun x y => y = x ∨ x.status.active = true ∧ y = { x with status := .unknown })
      s.sessions t.sessions := by
    refine foldlM_keeps (P := fun u : Store => List.Forall₂ _ s.sessions u.sessions) _
      (fun u x hx v hu hv => ?_) _ _ (List.forall₂_same.2 fun x _ => .inl rfl) h
    have hv : v.sessions = (u.save { x with status := .unknown }).sessions :=
      event_frame (p := .sessions) hv (by decide)
    obtain ⟨hmem, hact⟩ := hl x hx
    rw [hv]
    refine forall₂_updateWhere_of hu fun z hz y hzy hy => ?_
    have hid : z.id = x.id := by
      rcases hzy with rfl | ⟨-, rfl⟩ <;> exact of_decide_eq_true hy
    obtain rfl : z = x := Keyed.eq hk hz hmem hid
    exact .inr ⟨hact, rfl⟩
  refine hmoved.imp fun x y hxy => ?_
  rcases hxy with rfl | ⟨ha, rfl⟩
  · exact .stay y
  · exact .lost x rfl ha

theorem reopen_moves (hk : s.SessionsKeyed) (h : s.reopen now = .ok t) :
    List.Forall₂ (SessionMoves .reopen) s.sessions t.sessions := by
  simp only [reopen, bind_eq_ok] at h
  obtain ⟨s₁, h₁, s₂, h₂, s₃, h₃, h₄⟩ := h
  have q₁ : Part.Same s.pauseRestarted s₁ .sessions :=
    foldlM_frame (fun _ _ _ h => quarantine_frame h (by decide)) h₁
  have q₂ : Part.Same s₁ s₂ .sessions :=
    foldlM_frame (fun _ _ _ h => endSubagents_frame h (by decide)) h₂
  have q₃ : Part.Same s₂ s₃ .sessions := foldlM_frame (fun _ _ _ h => loseTurn_frame h (by decide)) h₃
  have hsame : s₃.sessions = s.sessions := (q₁.trans q₂).trans q₃
  have hmoves := interrupts_moves (hk.of_ids (by rw [hsame])) (fun x hx => ?_) h₄
  · rwa [hsame] at hmoves
  · obtain ⟨hmem, hact⟩ := List.mem_filter.1 hx
    exact ⟨List.mem_reverse.1 hmem, hact⟩

/-- The row a session is created with. -/
def createdRow (fresh projectId agent : String) (now : ℕ) : Session where
  id := fresh
  projectId := projectId
  title := "新任务"
  agent := agent
  status := .ready
  createdAt := now

/-- Every accepted operation but `create_session` moves the rows there are, and `create_session`
adds one behind them. -/
theorem apply_sessions {o : StoreOp × ℕ} (hk : s.SessionsKeyed) (h : s.apply o = .ok t) :
    List.Forall₂ (SessionMoves o.1) s.sessions t.sessions ∨
    ∃ fresh projectId agent, o.1 = .createSession fresh projectId agent ∧
      (∀ x ∈ s.sessions, x.id ≠ fresh) ∧
      t.sessions = s.sessions ++ [createdRow fresh projectId agent o.2] := by
  by_cases hw : Part.sessions ∉ o.1.writes
  · exact .inl (same_moves (apply_frame h hw))
  obtain ⟨op, now⟩ := o
  cases op with
  | createSession fresh projectId agent =>
    obtain ⟨hfresh, rfl⟩ := createSession_cases h
    refine .inr ⟨fresh, projectId, agent, rfl, fun x hx he => ?_, rfl⟩
    exact List.any_eq_false.1 hfresh x hx (decide_eq_true he)
  | archive id archived =>
    obtain ⟨x, hx, -, rfl⟩ := archiveSession_cases h
    obtain ⟨hmem, rfl⟩ := session_mem hx
    exact .inl (save_moves hk hmem rfl (.archived x archived rfl))
  | state id status message =>
    obtain ⟨x, hx, rfl⟩ := state_cases h
    obtain ⟨hmem, rfl⟩ := session_mem hx
    exact .inl (save_moves hk hmem rfl (.moved x status message rfl))
  | begin id r =>
    simp only [apply, map_eq_ok] at h
    obtain ⟨⟨u, new⟩, h, rfl⟩ := h
    obtain ⟨-, rfl, -⟩ | ⟨-, -, x, hx, -, -, rfl⟩ := beginTurn_cases h
    · exact .inl (same_moves rfl)
    · obtain ⟨hmem, rfl⟩ := session_mem hx
      exact .inl (save_moves (y := started x r) hk hmem rfl (.started x r rfl))
  | nativeTitle id title custom =>
    obtain rfl | ⟨x, hx, rfl⟩ := syncNativeTitle_cases h
    · exact .inl (same_moves rfl)
    · obtain ⟨hmem, rfl⟩ := session_mem hx
      exact .inl (save_moves hk hmem rfl (.titled x title custom rfl))
  | nativeSession id native =>
    obtain ⟨x, hx, rfl⟩ := saveNativeSession_cases h
    obtain ⟨hmem, rfl⟩ := session_mem hx
    exact .inl (save_moves hk hmem rfl (.native x native rfl))
  | reopen => exact .inl (reopen_moves hk h)
  | _ => exact absurd (by simp [StoreOp.writes]) hw

theorem apply_sessionsKeyed {o : StoreOp × ℕ} (hk : s.SessionsKeyed) (h : s.apply o = .ok t) :
    t.SessionsKeyed := by
  rcases apply_sessions hk h with hm | ⟨fresh, projectId, agent, -, hnew, ht⟩
  · exact hk.of_ids (forall₂_map_eq Session.id (fun _ _ h => h.id) hm)
  · rw [SessionsKeyed, ht]
    exact hk.append hnew

end Store

end LatteWork
