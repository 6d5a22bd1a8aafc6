import LatteWork.Proofs.Frame
import LatteWork.Proofs.Quiet
import LatteWork.Store.Projects
import Mathlib.Tactic.Linarith

/-!
# The number of pinned sessions

A pin counts the sessions that are pinned where they can be seen. Hiding a project takes its pinned
sessions out of that count, and bringing the project back puts them in again without looking.
-/

namespace LatteWork

open Fallible Table

/-- The columns of a session that decide whether it is listed as pinned. -/
def Session.pinMark (x : Session) : String × String × Option ℕ × Bool :=
  (x.id, x.projectId, x.pinnedAt, x.archived)

/-- The operations that set those columns. -/
def StoreOp.setsMarks : StoreOp → Bool
  | .createSession .. | .archive .. => true
  | _ => false

namespace Store

variable {s t : Store}

def pinMarks (s : Store) : List (String × String × Option ℕ × Bool) := s.sessions.map (·.pinMark)

/-- The rows have distinct ids, and an archived one is not pinned. -/
structure Pins (s : Store) : Prop where
  keyed : s.SessionsKeyed
  archived : ∀ x ∈ s.sessions, x.archived = true → x.pinnedAt = none

theorem ids_of_pinMarks (h : t.pinMarks = s.pinMarks) :
    t.sessions.map (·.id) = s.sessions.map (·.id) := by
  have := congrArg (List.map Prod.fst) h
  simpa [pinMarks, Session.pinMark, Function.comp_def] using this

theorem Pins.of_pinMarks (h : t.pinMarks = s.pinMarks) (hs : s.Pins) : t.Pins := by
  refine ⟨hs.keyed.of_ids (ids_of_pinMarks h), fun x hx ha => ?_⟩
  have hmem : x.pinMark ∈ s.pinMarks := h ▸ List.mem_map.2 ⟨x, hx, rfl⟩
  obtain ⟨y, hy, hm⟩ := List.mem_map.1 hmem
  simp only [Session.pinMark, Prod.mk.injEq] at hm
  obtain ⟨-, -, hpin, harch⟩ := hm
  rw [← hpin]
  exact hs.archived y hy (harch.trans ha)

/-- Overwriting a row with its own marks keeps the marks. -/
theorem save_pinMarks {y : Session} (hk : s.SessionsKeyed) (hy : y.pinMark ∈ s.pinMarks) :
    (s.save y).pinMarks = s.pinMarks := by
  obtain ⟨x, hx, hm⟩ := List.mem_map.1 hy
  simp only [pinMarks, save, updateWhere, List.map_map]
  refine List.map_congr_left fun z hz => ?_
  by_cases hid : z.id = y.id
  · have hxy : x.id = y.id := congrArg Prod.fst hm
    obtain rfl : z = x := Keyed.eq hk hz hx (hid.trans hxy.symm)
    simp [hid, hm]
  · simp [hid]

theorem save_read_pinMarks {id : String} {x y : Session} (hk : s.SessionsKeyed)
    (hx : s.session id = .ok x) (hy : y.pinMark = x.pinMark) : (s.save y).pinMarks = s.pinMarks :=
  save_pinMarks hk (List.mem_map.2 ⟨x, (session_mem hx).1, hy.symm⟩)

theorem pinMarks_of_same (h : Part.Same s t .sessions) : t.pinMarks = s.pinMarks := by
  have h : t.sessions = s.sessions := h
  rw [pinMarks, h, pinMarks]

theorem interrupts_pinMarks {now : ℕ} {l : List Session} (hk : s.SessionsKeyed)
    (hl : ∀ x ∈ l, x ∈ s.sessions) (h : l.foldlM (interrupt now) s = .ok t) :
    t.pinMarks = s.pinMarks := by
  refine foldlM_keeps (P := fun u : Store => u.pinMarks = s.pinMarks) _ (fun u x hx v hu hv => ?_)
    _ _ rfl h
  have hv : v.pinMarks = (u.save { x with status := .unknown }).pinMarks :=
    pinMarks_of_same (event_frame hv (by decide))
  rw [hv, save_pinMarks (hk.of_ids (ids_of_pinMarks hu)) ?_, hu]
  rw [hu]
  exact List.mem_map.2 ⟨x, hl x hx, rfl⟩

theorem reopen_pinMarks {now : ℕ} (hk : s.SessionsKeyed) (h : s.reopen now = .ok t) :
    t.pinMarks = s.pinMarks := by
  simp only [reopen, bind_eq_ok] at h
  obtain ⟨s₁, h₁, s₂, h₂, s₃, h₃, h₄⟩ := h
  have q₁ : Part.Same s.pauseRestarted s₁ .sessions :=
    foldlM_frame (fun _ _ _ h => quarantine_frame h (by decide)) h₁
  have q₂ : Part.Same s₁ s₂ .sessions :=
    foldlM_frame (fun _ _ _ h => endSubagents_frame h (by decide)) h₂
  have q₃ : Part.Same s₂ s₃ .sessions := foldlM_frame (fun _ _ _ h => loseTurn_frame h (by decide)) h₃
  have hsame : s₃.pinMarks = s.pinMarks := pinMarks_of_same ((q₁.trans q₂).trans q₃)
  rw [interrupts_pinMarks (hk.of_ids (ids_of_pinMarks hsame)) (fun x hx => ?_) h₄, hsame]
  exact List.mem_reverse.1 (List.mem_filter.1 hx).1

/-- Every other operation leaves the marks alone. -/
theorem apply_pinMarks {o : StoreOp × ℕ} (hk : s.SessionsKeyed) (hm : o.1.setsMarks = false)
    (h : s.apply o = .ok t) : t.pinMarks = s.pinMarks := by
  by_cases hw : Part.sessions ∉ o.1.writes
  · exact pinMarks_of_same (apply_frame h hw)
  obtain ⟨op, now⟩ := o
  cases op with
  | state id status message =>
    obtain ⟨x, hx, rfl⟩ := state_cases h
    exact save_read_pinMarks hk hx rfl
  | begin id r =>
    simp only [apply, map_eq_ok] at h
    obtain ⟨⟨u, new⟩, h, rfl⟩ := h
    obtain ⟨-, rfl, -⟩ | ⟨-, -, x, hx, -, -, rfl⟩ := beginTurn_cases h
    · rfl
    · exact save_read_pinMarks (y := started x r) hk hx rfl
  | nativeTitle id title custom =>
    obtain rfl | ⟨x, hx, rfl⟩ := syncNativeTitle_cases h
    · rfl
    · exact save_read_pinMarks hk hx rfl
  | nativeSession id native =>
    obtain ⟨x, hx, rfl⟩ := saveNativeSession_cases h
    exact save_read_pinMarks hk hx rfl
  | reopen => exact reopen_pinMarks hk h
  | createSession | archive => cases hm
  | _ => exact absurd (by simp [StoreOp.writes]) hw

/-- Overwriting a row moves a count of the rows by what it says of the old and the new row. -/
theorem countP_save {p : Session → Bool} {x y : Session} (hk : s.SessionsKeyed)
    (hx : x ∈ s.sessions) (hy : y.id = x.id) :
    (s.save y).sessions.countP p + (if p x then 1 else 0) =
      s.sessions.countP p + if p y then 1 else 0 := by
  unfold save
  simp only [hy]
  exact countP_overwrite hk hx

end Store

namespace ProjectStore

variable {s t : ProjectStore}

/-- The columns are those of a session that is listed as pinned. -/
def listed (hidden : List String) (m : String × String × Option ℕ × Bool) : Bool :=
  m.2.2.1.isSome && !m.2.2.2 && !hidden.contains m.2.1

theorem pinnedRows_length (s : ProjectStore) :
    s.pinnedRows.length = s.store.pinMarks.countP (listed s.hiddenProjects) := by
  rw [pinnedRows, ← List.countP_eq_length_filter, Store.pinMarks, List.countP_map]
  rfl

theorem pinnedRows_eq_count (s : ProjectStore) :
    s.pinnedRows.length = s.store.sessions.countP fun x => listed s.hiddenProjects x.pinMark := by
  rw [pinnedRows, ← List.countP_eq_length_filter]
  rfl

theorem pinnedSessions_length (s : ProjectStore) :
    s.pinnedSessions.length = min 100 s.pinnedRows.length := by
  rw [pinnedSessions, List.length_take, List.length_insertionSort]

/-- Within the limit every pinned session is listed. -/
theorem pinnedSessions_complete (h : s.pinnedRows.length ≤ 100) {x : Session} (hx : x ∈ s.pinnedRows) :
    x ∈ s.pinnedSessions := by
  rw [pinnedSessions, List.take_of_length_le (by rwa [List.length_insertionSort])]
  exact (List.mem_insertionSort _).2 hx

/-- The limit of `pin_session`. -/
def Limited (s : ProjectStore) : Prop := s.pinnedRows.length ≤ 100

theorem save_length {x y : Session} (hs : s.store.Pins) (hx : x ∈ s.store.sessions)
    (hid : y.id = x.id) :
    { s with store := s.store.save y }.pinnedRows.length +
        (if listed s.hiddenProjects x.pinMark then 1 else 0) =
      s.pinnedRows.length + if listed s.hiddenProjects y.pinMark then 1 else 0 := by
  rw [pinnedRows_eq_count, pinnedRows_eq_count]
  exact Store.countP_save (p := fun x => listed s.hiddenProjects x.pinMark) hs.keyed hx hid

theorem save_length_le {x y : Session} (hs : s.store.Pins) (hx : x ∈ s.store.sessions)
    (hid : y.id = x.id)
    (hy : listed s.hiddenProjects y.pinMark = true → listed s.hiddenProjects x.pinMark = true) :
    { s with store := s.store.save y }.pinnedRows.length ≤ s.pinnedRows.length := by
  have hlen := save_length hs hx hid
  by_cases h : listed s.hiddenProjects y.pinMark = true
  · rw [if_pos h, if_pos (hy h)] at hlen
    omega
  · rw [if_neg h] at hlen
    omega

theorem save_length_succ {x y : Session} (hs : s.store.Pins) (hx : x ∈ s.store.sessions)
    (hid : y.id = x.id) :
    { s with store := s.store.save y }.pinnedRows.length ≤ s.pinnedRows.length + 1 := by
  have hlen := save_length hs hx hid
  have hone : (if listed s.hiddenProjects y.pinMark = true then 1 else 0) ≤ 1 := by
    split_ifs <;> omega
  omega

theorem save_pins {y : Session} (hs : s.store.Pins)
    (hy : y.archived = true → y.pinnedAt = none) : (s.store.save y).Pins := by
  refine ⟨hs.keyed.of_ids (map_updateWhere (fun z hz => ?_) _), fun z hz ha => ?_⟩
  · exact (of_decide_eq_true hz).symm
  · obtain ⟨q, hq, rfl⟩ := mem_updateWhere.1 hz
    split_ifs at ha ⊢
    · exact hy ha
    · exact hs.archived q hq ha

theorem createSession_step {fresh projectId agent : String} {now : ℕ} {u : Store}
    (hs : s.store.Pins) (h : s.store.createSession fresh projectId agent now = .ok u) :
    u.Pins ∧ { s with store := u }.pinnedRows.length = s.pinnedRows.length := by
  obtain ⟨hfresh, rfl⟩ := Store.createSession_cases h
  refine ⟨⟨hs.keyed.append fun q hq he => ?_, fun x hx ha => ?_⟩, ?_⟩
  · rw [List.any_eq_false] at hfresh
    exact hfresh q hq (decide_eq_true he)
  · rcases List.mem_append.1 hx with hx | hx
    · exact hs.archived x hx ha
    · obtain rfl := List.mem_singleton.1 hx
      rfl
  · simp [pinnedRows_eq_count, Session.pinMark, listed]

theorem archive_step {id : String} {archived : Bool} {u : Store} (hs : s.store.Pins)
    (h : s.store.archiveSession id archived = .ok u) :
    u.Pins ∧ { s with store := u }.pinnedRows.length ≤ s.pinnedRows.length := by
  obtain ⟨x, hx, -, rfl⟩ := Store.archiveSession_cases h
  obtain ⟨hmem, -⟩ := Store.session_mem hx
  refine ⟨save_pins hs fun ha => if_pos ha, save_length_le hs hmem rfl fun hl => ?_⟩
  -- a session that leaves the archive is not pinned
  have hnone := hs.archived x hmem
  cases archived <;> cases ha : x.archived <;> simp_all [listed, Session.pinMark]

theorem pin_pins {id : String} {pinned : Bool} {now : ℕ} {x : Session} (hs : s.store.Pins)
    (h : s.pinSession id pinned now = .ok (t, x)) : t.store.Pins := by
  simp only [pinSession, bind_eq_ok, bailIf_eq_ok, Except.ok.injEq, Prod.mk.injEq] at h
  obtain ⟨x, -, _, harch, _, -, rfl, -⟩ := h
  exact save_pins hs fun ha => if_neg fun hp => harch ⟨hp, ha⟩

theorem pin_limited {id : String} {pinned : Bool} {now : ℕ} {x : Session} (hs : s.store.Pins)
    (hl : s.Limited) (h : s.pinSession id pinned now = .ok (t, x)) : t.Limited := by
  simp only [pinSession, bind_eq_ok, bailIf_eq_ok, Except.ok.injEq, Prod.mk.injEq] at h
  obtain ⟨x, hx, _, -, _, hfull, rfl, -⟩ := h
  obtain ⟨hmem, -⟩ := Store.session_mem hx
  rw [pinnedSessions_length] at hfull
  unfold Limited at hl ⊢
  -- only a session that was not pinned adds to the count, and then there was room
  by_cases hnew : pinned = true ∧ x.pinnedAt.isNone = true
  · have hroom : ¬100 ≤ min 100 s.pinnedRows.length := fun h => hfull ⟨hnew.1, hnew.2, h⟩
    refine le_trans (save_length_succ hs hmem rfl) ?_
    omega
  · refine le_trans (save_length_le hs hmem rfl fun hl => ?_) hl
    cases pinned <;> cases hp : x.pinnedAt <;> simp_all [listed, Session.pinMark]

theorem remove_step {id : String} (h : s.removeProject id = .ok t) :
    t.store = s.store ∧ t.pinnedRows.length ≤ s.pinnedRows.length := by
  simp only [removeProject, bind_eq_ok, bailIf_eq_ok, Except.ok.injEq] at h
  obtain ⟨_, -, _, -, rfl⟩ := h
  refine ⟨rfl, ?_⟩
  rw [pinnedRows_length, pinnedRows_length]
  refine List.countP_mono_left fun m _ hm => ?_
  simp only [listed, Bool.and_eq_true, Bool.not_eq_true', List.contains_eq_mem,
    decide_eq_false_iff_not] at hm ⊢
  refine ⟨hm.1, fun hin => hm.2 ?_⟩
  split_ifs
  · exact hin
  · exact List.mem_append_left _ hin

/-- What an accepted `add_named_project` does: it brings a project back, or changes nothing that
is shown. -/
theorem add_step {resolve : String → Option ResolvedPath} {fresh path : String} {name : Option String}
    {project : Project} (h : s.addNamedProject resolve fresh path name = .ok (t, project)) :
    t.store.sessions = s.store.sessions ∧
      ((s.broughtBack resolve path name = some project ∧
          t.hiddenProjects = s.hiddenProjects.filter (· ≠ project.id) ∧
          project.id ∈ s.hiddenProjects) ∨
        s.broughtBack resolve path name = none ∧ t.hiddenProjects = s.hiddenProjects) := by
  simp only [addNamedProject, bind_eq_ok] at h
  obtain ⟨canonical, hpath, h⟩ := h
  unfold addCanonical at h
  unfold broughtBack
  simp only [hpath]
  split at h
  · rename_i existing hfind
    simp only [Except.ok.injEq, Prod.mk.injEq] at h
    obtain ⟨rfl, rfl⟩ := h
    refine ⟨rfl, ?_⟩
    by_cases hhidden : existing.id ∈ s.hiddenProjects
    · exact .inl ⟨by simp [hfind, hhidden], rfl, hhidden⟩
    · refine .inr ⟨by simp [hfind, hhidden], List.filter_eq_self.2 fun a ha => ?_⟩
      exact decide_eq_true fun he => hhidden (he ▸ ha)
  · rename_i hfind
    simp only [bind_eq_ok, bailIf_eq_ok, Except.ok.injEq, Prod.mk.injEq] at h
    obtain ⟨_, -, rfl, rfl⟩ := h
    exact ⟨rfl, .inr ⟨by simp [hfind], rfl⟩⟩

/-- A project that would be brought back is. -/
theorem add_accepts {resolve : String → Option ResolvedPath} {path : String} {name : Option String}
    {project : Project} (h : s.broughtBack resolve path name = some project) (fresh : String) :
    ∃ t, s.addNamedProject resolve fresh path name = .ok (t, project) := by
  unfold broughtBack at h
  split at h
  · rename_i canonical hpath
    obtain ⟨hfind, -⟩ := Option.filter_eq_some_iff.1 h
    have hadd (name : Option String) : ∃ t, s.addCanonical fresh canonical name = .ok (t, project) := by
      unfold addCanonical
      rw [hfind]
      exact ⟨_, rfl⟩
    obtain ⟨t, ht⟩ := hadd ((name.map trim).filter (· ≠ ""))
    exact ⟨t, bind_eq_ok.2 ⟨canonical, hpath, ht⟩⟩
  · cases h

/-- A project that comes back brings its pinned sessions. -/
theorem broughtBack_length {id : String} (hsessions : t.store.sessions = s.store.sessions)
    (hhidden : t.hiddenProjects = s.hiddenProjects.filter (· ≠ id)) (hid : id ∈ s.hiddenProjects) :
    t.pinnedRows.length = s.pinnedRows.length + (s.pinnedIn id).length := by
  rw [pinnedRows_eq_count, pinnedRows_eq_count, pinnedIn, ← List.countP_eq_length_filter, hsessions,
    hhidden]
  induction s.store.sessions with
  | nil => rfl
  | cons x rest ih =>
    simp only [List.countP_cons, ih]
    have hsplit : (if listed (s.hiddenProjects.filter (· ≠ id)) x.pinMark then 1 else 0) =
        (if listed s.hiddenProjects x.pinMark then 1 else 0) +
          if (x.pinnedAt.isSome && !x.archived && x.projectId == id) then 1 else 0 := by
      by_cases hp : x.projectId = id
      · simp [listed, Session.pinMark, hp, hid]
      · simp [listed, Session.pinMark, hp]
    omega

/-- What can lift the number over the limit is bringing a project back: there must be room for its
pinned sessions. -/
def Fits (resolve : String → Option ResolvedPath) (s : ProjectStore) (o : ProjectOp × ℕ) : Prop :=
  match o.1 with
  | .addNamedProject _ path name => ∀ project, s.broughtBack resolve path name = some project →
      s.pinnedRows.length + (s.pinnedIn project.id).length ≤ 100
  | _ => True

section

variable {resolve : String → Option ResolvedPath}

theorem store_step {op : StoreOp} {now : ℕ} {u : Store} (hs : s.store.Pins)
    (h : s.store.apply (op, now) = .ok u) :
    u.Pins ∧ { s with store := u }.pinnedRows.length ≤ s.pinnedRows.length := by
  rcases hm : op.setsMarks with _ | _
  · have hmarks := Store.apply_pinMarks hs.keyed hm h
    refine ⟨hs.of_pinMarks hmarks, ?_⟩
    rw [pinnedRows_length, pinnedRows_length, hmarks]
  · cases op with
    | createSession fresh projectId agent =>
      obtain ⟨hpins, hlen⟩ := createSession_step hs h
      exact ⟨hpins, hlen.le⟩
    | archive id archived => exact archive_step hs h
    | _ => cases hm

theorem step_pins (hs : s.store.Pins) (o : ProjectOp × ℕ) : (step resolve s o).store.Pins := by
  refine Runs.attempt_keeps (P := fun t : ProjectStore => t.store.Pins) (fun t ht => ?_) hs
  obtain ⟨op, now⟩ := o
  cases op with
  | addNamedProject fresh path name =>
    obtain ⟨⟨t, project⟩, h, rfl⟩ := map_eq_ok.1 ht
    refine hs.of_pinMarks ?_
    rw [Store.pinMarks, (add_step h).1, Store.pinMarks]
  | removeProject id =>
    rw [(remove_step ht).1]
    exact hs
  | pin id pinned =>
    obtain ⟨⟨t, x⟩, h, rfl⟩ := map_eq_ok.1 ht
    exact pin_pins hs h
  | store op =>
    obtain ⟨u, h, rfl⟩ := map_eq_ok.1 ht
    exact (store_step hs h).1

/-- A step keeps the number within the limit exactly when a project it brings back fits in. -/
theorem step_limited_iff (hs : s.store.Pins) (hl : s.Limited) (o : ProjectOp × ℕ) :
    (step resolve s o).Limited ↔ s.Fits resolve o := by
  obtain ⟨op, now⟩ := o
  cases op with
  | addNamedProject fresh path name =>
    unfold step Fits
    rcases h : s.addNamedProject resolve fresh path name with e | ⟨t, project⟩
    · have hrefused : apply resolve s (.addNamedProject fresh path name, now) = .error e := by
        rw [apply, h]
        rfl
      rw [Runs.attempt_error hrefused]
      refine iff_of_true hl fun project hback => ?_
      obtain ⟨t, he⟩ := add_accepts hback fresh
      rw [h] at he
      cases he
    · have haccepted : apply resolve s (.addNamedProject fresh path name, now) = .ok t := by
        rw [apply, h]
        rfl
      rw [Runs.attempt_ok haccepted]
      obtain ⟨hsessions, ⟨hback, hhidden, hid⟩ | ⟨hback, hhidden⟩⟩ := add_step h
      · rw [Limited, broughtBack_length hsessions hhidden hid]
        simp [hback]
      · rw [Limited, pinnedRows, hsessions, hhidden]
        exact iff_of_true hl (by simp [hback])
  | removeProject id =>
    exact iff_of_true (Runs.attempt_keeps (P := Limited) (fun t ht => (remove_step ht).2.trans hl) hl) trivial
  | pin id pinned =>
    refine iff_of_true (Runs.attempt_keeps (P := Limited) (fun t ht => ?_) hl) trivial
    obtain ⟨⟨t, x⟩, h, rfl⟩ := map_eq_ok.1 ht
    exact pin_limited hs hl h
  | store op =>
    refine iff_of_true (Runs.attempt_keeps (P := Limited) (fun t ht => ?_) hl) trivial
    obtain ⟨u, h, rfl⟩ := map_eq_ok.1 ht
    exact (store_step hs h).2.trans hl

/-- In every run of the operations on the database, the number of sessions that are pinned where
they can be seen stays within the limit, and every one of them is listed, exactly when each project
that is brought back on the way finds room for its pinned sessions. -/
theorem pin_limit_iff (resolve : String → Option ResolvedPath) (ops : List (ProjectOp × ℕ)) :
    (∀ ahead, ahead <+: ops →
      let s := Runs.run (step resolve) {} ahead
      s.pinnedRows.length ≤ 100 ∧ ∀ x ∈ s.pinnedRows, x ∈ s.pinnedSessions) ↔
    ∀ ahead o, ahead ++ [o] <+: ops → (Runs.run (step resolve) {} ahead).Fits resolve o := by
  have hstart : ({} : ProjectStore).store.Pins :=
    ⟨List.nodup_nil, fun x hx => absurd hx List.not_mem_nil⟩
  have hrun := Runs.prefixes_iff (P := Limited) (A := fun _ => True) hstart
    (C := Fits resolve) (fun s o h => step_pins h o) (Nat.zero_le _)
    (fun s o _ h hl => step_limited_iff h hl o) (fun o (_ : o ∈ ops) => trivial)
  rw [← hrun]
  refine forall₂_congr fun ahead _ => ⟨fun h => h.1, fun h => ⟨h, fun x => pinnedSessions_complete h⟩⟩

end

/-- A file system in which every absolute path names a directory. -/
def everyDir (path : String) : Option ResolvedPath := some { isDir := true, text := some path }

/-- Open sessions in a project and pin them. -/
def pinAll (project : String) (ids : List ℕ) : List (ProjectOp × ℕ) :=
  ids.flatMap fun n =>
    [(.store (.createSession (toString n) project "claude"), 0), (.pin (toString n) true, 0)]

/-- Pin a session of a project and hide it, pin 100 of another one, and add the first again. -/
def unhide : List (ProjectOp × ℕ) :=
  [(.addNamedProject "a" "/a" none, 0)] ++ pinAll "a" [0] ++
    [(.removeProject "a", 0), (.addNamedProject "b" "/b" none, 0)] ++
    pinAll "b" (List.range' 1 100) ++ [(.addNamedProject "c" "/a" none, 0)]

/-- Then 101 sessions are pinned, and 100 are listed. -/
theorem unhide_over_limit :
    let s := Runs.run (step everyDir) {} unhide
    s.pinnedRows.length = 101 ∧ s.pinnedSessions.length = 100 := by
  decide +kernel

end ProjectStore

end LatteWork
