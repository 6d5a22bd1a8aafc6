import LatteWork.Proofs.PinLimit
import LatteWork.Proofs.SessionMoves
import LatteWork.Store.Marks

/-!
# The unread mark

A session is marked unread when its turn ends, in the write that logs the end, and when the user
says so. Everything else that rewrites the session's row writes the mark it read.
-/

namespace LatteWork

open Fallible Table

namespace SessionOp

/-- The operation ends a turn of the session. -/
def ends (o : SessionOp) (x : Session) : Prop :=
  ∃ status message, o = .project (.store (.state x.id status message)) ∧ x.status.active = true ∧
    Store.terminal status = true

/-- The mark that the operation leaves on a session. -/
def leaves (o : SessionOp) (x : Session) : Bool :=
  match o with
  | .markUnread id unread => if id = x.id then unread else x.unread
  | .project (.store (.state id status _)) =>
    if id = x.id then x.unread || (x.status.active && Store.terminal status) else x.unread
  | _ => x.unread

end SessionOp

theorem SessionMoves.unread {op : StoreOp} {x y : Session} (h : SessionMoves op x y)
    (hop : ∀ id status message, op ≠ .state id status message) : y.unread = x.unread := by
  cases h with
  | moved status message h => exact absurd h (hop _ _ _)
  | _ => rfl

namespace ProjectStore

variable {resolve : String → Option ResolvedPath} {s t : ProjectStore} {o : SessionOp} {now : ℕ}

/-- The rows of the sessions are those there were, each with the mark the operation leaves. -/
def Marked (o : SessionOp) (s t : ProjectStore) : Prop :=
  List.Forall₂ (fun x y : Session => y.id = x.id ∧ y.unread = o.leaves x) s.store.sessions
    t.store.sessions

theorem marked_same (h : t.store.sessions = s.store.sessions)
    (hleaves : ∀ x ∈ s.store.sessions, o.leaves x = x.unread) : Marked o s t := by
  rw [Marked, h]
  exact List.forall₂_same.2 fun x hx => ⟨rfl, (hleaves x hx).symm⟩

/-- A row that was read is written back. -/
theorem marked_save (hk : s.store.SessionsKeyed) {x y : Session} (hx : x ∈ s.store.sessions)
    (h : t.store.sessions = (s.store.save y).sessions) (hid : y.id = x.id)
    (hy : y.unread = o.leaves x) (hother : ∀ z, x.id ≠ z.id → o.leaves z = z.unread) :
    Marked o s t := by
  rw [Marked, h, Store.save, updateWhere]
  refine List.forall₂_map_right_iff.2 (List.forall₂_same.2 fun z hz => ?_)
  by_cases hzy : z.id = y.id
  · obtain rfl : z = x := Keyed.eq hk hz hx (hzy.trans hid)
    simp [hzy, hy]
  · have hne : x.id ≠ z.id := fun he => hzy (he.symm.trans hid.symm)
    simp [hzy, hother z hne]

/-- A session that is not there yet comes in read, and the others keep their marks. -/
structure Added (o : SessionOp) (s t : ProjectStore) : Prop where
  row : ∃ x, x.unread = false ∧ (∀ z ∈ s.store.sessions, z.id ≠ x.id) ∧
    t.store.sessions = s.store.sessions ++ [x]
  leaves : ∀ x, o.leaves x = x.unread

theorem store_marked (hk : s.store.SessionsKeyed) {op : StoreOp} {u : Store}
    (h : s.store.apply (op, now) = .ok u) :
    Marked (.project (.store op)) s { s with store := u } ∨
      Added (.project (.store op)) s { s with store := u } := by
  by_cases hop : ∃ id status message, op = .state id status message
  · obtain ⟨id, status, message, rfl⟩ := hop
    obtain ⟨x, hx, rfl⟩ := Store.state_cases h
    obtain ⟨hmem, rfl⟩ := Store.session_mem hx
    refine .inl (marked_save hk hmem rfl rfl ?_ fun z hz => ?_)
    · simp [SessionOp.leaves]
    · simp [SessionOp.leaves, hz]
  · have hleaves : ∀ x, SessionOp.leaves (.project (.store op)) x = x.unread := fun x => by
      cases op <;> first | rfl | exact absurd ⟨_, _, _, rfl⟩ hop
    rcases Store.apply_sessions hk h with hm | ⟨fresh, projectId, agent, -, hnew, hu⟩
    · refine .inl (hm.imp fun x y hxy => ⟨hxy.id, ?_⟩)
      rw [hleaves]
      exact hxy.unread fun id status message he => hop ⟨id, status, message, he⟩
    · exact .inr ⟨⟨_, rfl, fun z hz he => hnew z hz he, hu⟩, hleaves⟩

theorem project_marked (hk : s.store.SessionsKeyed) {op : ProjectOp}
    (h : s.apply resolve (op, now) = .ok t) : Marked (.project op) s t ∨
    Added (.project op) s t := by
  cases op with
  | addNamedProject fresh path name =>
    simp only [apply, map_eq_ok] at h
    obtain ⟨⟨u, project⟩, h, rfl⟩ := h
    exact .inl (marked_same (add_step h).1 fun _ _ => rfl)
  | removeProject id => exact .inl (marked_same (by rw [(remove_step h).1]) fun _ _ => rfl)
  | pin id pinned =>
    simp only [apply, map_eq_ok] at h
    obtain ⟨⟨u, row⟩, h, rfl⟩ := h
    simp only [pinSession, bind_eq_ok, bailIf_eq_ok, Except.ok.injEq, Prod.mk.injEq] at h
    obtain ⟨x, hx, _, -, _, -, rfl, -⟩ := h
    exact .inl (marked_save hk (Store.session_mem hx).1 rfl rfl rfl fun _ _ => rfl)
  | store op =>
    simp only [apply, map_eq_ok] at h
    obtain ⟨u, h, rfl⟩ := h
    exact store_marked hk h

/-- The step lemma, for an accepted operation. -/
theorem applySession_marked (hk : s.store.SessionsKeyed)
    (h : s.applySession resolve (o, now) = .ok t) : Marked o s t ∨ Added o s t := by
  cases o with
  | rename id title =>
    simp only [applySession, map_eq_ok, Store.renameSession, bind_eq_ok, Except.ok.injEq] at h
    obtain ⟨_, ⟨title, -, x, hx, rfl⟩, rfl⟩ := h
    exact .inl (marked_save hk (Store.session_mem hx).1 rfl rfl rfl fun _ _ => rfl)
  | markUnread id unread =>
    simp only [applySession, map_eq_ok, Store.markSessionUnread, bind_eq_ok, Except.ok.injEq] at h
    obtain ⟨_, ⟨x, hx, rfl⟩, rfl⟩ := h
    obtain ⟨hmem, rfl⟩ := Store.session_mem hx
    refine .inl (marked_save hk hmem rfl rfl ?_ fun z hz => ?_)
    · simp [SessionOp.leaves]
    · simp [SessionOp.leaves, hz]
  | project op => exact project_marked hk h

/-- A session that is there has a row to read. -/
theorem session_of_mem {x : Session} (hx : x ∈ s.store.sessions) (hk : s.store.SessionsKeyed) :
    s.store.session x.id = .ok x :=
  Store.session_eq_ok.2 (hk.find? hx)

/-- An operation that would set the mark of a session that is there is accepted. -/
theorem refused_leaves (hk : s.store.SessionsKeyed) {e : String}
    (h : s.applySession resolve (o, now) = .error e) {x : Session} (hx : x ∈ s.store.sessions) :
    o.leaves x = x.unread := by
  have hread := session_of_mem hx hk
  cases o with
  | rename id title => rfl
  | markUnread id unread =>
    by_cases hid : id = x.id
    · subst hid
      simp [applySession, Store.markSessionUnread, hread, bind, Except.bind, Except.map] at h
    · simp [SessionOp.leaves, hid]
  | project op =>
    cases op with
    | store op =>
      cases op with
      | state id status message =>
        by_cases hid : id = x.id
        · subst hid
          simp [applySession, apply, Store.apply, Store.state, hread, bind, Except.bind,
            Except.map] at h
        · simp [SessionOp.leaves, hid]
      | _ => rfl
    | _ => rfl

variable (resolve) in
/-- The step lemma, for any attempt. -/
theorem sessionStep_marked (o : SessionOp) (now : ℕ) (hk : s.store.SessionsKeyed) :
    Marked o s (sessionStep resolve s (o, now)) ∨
      Added o s (sessionStep resolve s (o, now)) := by
  rcases h : s.applySession resolve (o, now) with e | t
  · rw [sessionStep, Runs.attempt_error h]
    exact .inl (marked_same rfl fun x hx => refused_leaves hk h hx)
  · rw [sessionStep, Runs.attempt_ok h]
    exact applySession_marked hk h

variable (resolve) in
theorem sessionStep_keyed (hk : s.store.SessionsKeyed) (o : SessionOp × ℕ) :
    (sessionStep resolve s o).store.SessionsKeyed := by
  obtain ⟨o, now⟩ := o
  rcases sessionStep_marked resolve o now hk with
    hm | ⟨⟨x, -, hnew, ht⟩, -⟩
  · exact hk.of_ids (forall₂_map_eq Session.id (fun _ _ h => h.1) hm)
  · rw [Store.SessionsKeyed, ht]
    exact hk.append hnew

variable (resolve) in
/-- A session is there afterwards, with the mark the operation leaves. -/
theorem sessionStep_leaves (o : SessionOp) (now : ℕ) (hk : s.store.SessionsKeyed) {x : Session}
    (hx : x ∈ s.store.sessions) : ∃ y ∈ (sessionStep resolve s (o, now)).store.sessions,
      y.id = x.id ∧ y.unread = o.leaves x := by
  rcases sessionStep_marked resolve o now hk with
    hm | ⟨⟨_, -, -, ht⟩, hleaves⟩
  · obtain ⟨y, hy, hid, hunread⟩ := forall₂_target hm hx
    exact ⟨y, hy, hid, hunread⟩
  · exact ⟨x, ht ▸ List.mem_append_left _ hx, rfl, (hleaves x).symm⟩

end ProjectStore

theorem SessionOp.leaves_of_read {o : SessionOp} {x : Session} (h : x.unread = false) :
    o.leaves x = true ↔ o.ends x ∨ o = .markUnread x.id true := by
  constructor
  · intro hleaves
    unfold leaves at hleaves
    split at hleaves
    · split_ifs at hleaves with hid
      · exact .inr (by rw [hid, hleaves])
      · simp [h] at hleaves
    · split_ifs at hleaves with hid
      · simp only [h, Bool.false_or, Bool.and_eq_true] at hleaves
        exact .inl ⟨_, _, by rw [hid], hleaves⟩
      · simp [h] at hleaves
    · simp [h] at hleaves
  · rintro (⟨status, message, rfl, hact, hterm⟩ | rfl)
    · simp [leaves, hact, hterm]
    · simp [leaves]

theorem SessionOp.leaves_of_unread {o : SessionOp} {x : Session} (h : x.unread = true) :
    o.leaves x = false ↔ o = .markUnread x.id false := by
  constructor
  · intro hleaves
    unfold leaves at hleaves
    split at hleaves
    · split_ifs at hleaves with hid
      · rw [hid, hleaves]
      · simp [h] at hleaves
    · simp [h] at hleaves
    · simp [h] at hleaves
  · rintro rfl
    simp [leaves]

namespace ProjectStore

/-- What an operation may do with the unread marks of a database. -/
structure UnreadLaw (s t : ProjectStore) (o : SessionOp) (now : ℕ) : Prop where
  /-- A session becomes unread when its turn ends, or by the user's mark. -/
  set : ∀ x ∈ s.store.sessions, ∀ y ∈ t.store.sessions, y.id = x.id → x.unread = false →
    (y.unread = true ↔ o.ends x ∨ o = .markUnread x.id true)
  /-- It becomes read by the user's mark. -/
  cleared : ∀ x ∈ s.store.sessions, ∀ y ∈ t.store.sessions, y.id = x.id → x.unread = true →
    (y.unread = false ↔ o = .markUnread x.id false)
  /-- No session is lost, and a new one is read. -/
  kept : ∀ x ∈ s.store.sessions, ∃ y ∈ t.store.sessions, y.id = x.id
  fresh : ∀ y ∈ t.store.sessions, (∀ x ∈ s.store.sessions, x.id ≠ y.id) → y.unread = false
  /-- The write that ends a turn is the one that logs its end. -/
  logged : ∀ x ∈ s.store.sessions, ∀ status message,
    o = .project (.store (.state x.id status message)) →
      t.store = (s.store.save { x with
        unread := x.unread || (x.status.active && Store.terminal status)
        status }).insertEvent x.id (.state status message) now

/-- The unread mark, in every reachable database and for every operation. -/
theorem unread_law (resolve : String → Option ResolvedPath) (projects : List Project)
    (ops : List (SessionOp × ℕ)) (o : SessionOp) (now : ℕ) :
    UnreadLaw (Runs.run (sessionStep resolve) { store := Store.empty projects } ops)
      (Runs.run (sessionStep resolve) { store := Store.empty projects } (ops ++ [(o, now)])) o
      now := by
  rw [Runs.run_concat]
  have hempty : (Store.empty projects).SessionsKeyed := List.nodup_nil
  have hk : (Runs.run (sessionStep resolve) { store := Store.empty projects }
      ops).store.SessionsKeyed :=
    Runs.run_keeps (P := fun s : ProjectStore => s.store.SessionsKeyed) hempty
      (fun _ o h => sessionStep_keyed resolve h o) ops
  generalize Runs.run (sessionStep resolve) { store := Store.empty projects } ops = s at hk
  have hk' := sessionStep_keyed resolve hk (o, now)
  have hmark : ∀ x ∈ s.store.sessions, ∀ y ∈ (sessionStep resolve s (o, now)).store.sessions,
      y.id = x.id → y.unread = o.leaves x := by
    intro x hx y hy hid
    obtain ⟨z, hz, hzid, hunread⟩ := sessionStep_leaves resolve o now hk hx
    rwa [Keyed.eq hk' hy hz (hid.trans hzid.symm)]
  refine ⟨fun x hx y hy hid hread => ?_, fun x hx y hy hid hunread => ?_, fun x hx => ?_,
    fun y hy hnew => ?_, ?_⟩
  · rw [hmark x hx y hy hid]
    exact SessionOp.leaves_of_read hread
  · rw [hmark x hx y hy hid]
    exact SessionOp.leaves_of_unread hunread
  · obtain ⟨y, hy, hid, -⟩ := sessionStep_leaves resolve o now hk hx
    exact ⟨y, hy, hid⟩
  · rcases sessionStep_marked resolve o now hk with
      hm | ⟨⟨x, hread, -, ht⟩, -⟩
    · obtain ⟨x, hx, hid, -⟩ := forall₂_source hm hy
      exact absurd hid.symm (hnew x hx)
    · rw [ht] at hy
      rcases List.mem_append.1 hy with hy | hy
      · exact absurd rfl (hnew y hy)
      · rwa [List.mem_singleton.1 hy]
  · rintro x hx status message rfl
    have hread := session_of_mem hx hk
    have happly : s.applySession resolve (.project (.store (.state x.id status message)), now) =
        .ok { s with store := (s.store.save { x with
          unread := x.unread || (x.status.active && Store.terminal status)
          status }).insertEvent x.id (.state status message) now } := by
      simp only [applySession, apply, Store.apply, Store.state, hread]
      rfl
    rw [sessionStep, Runs.attempt_ok happly]

end ProjectStore

end LatteWork
