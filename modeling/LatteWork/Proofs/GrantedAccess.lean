import LatteWork.Store.Grants

/-!
# What the grants allow

The table of grants holds what the accepted operations left granted, at most so much for a project.
So what may be read is what is granted, and the list of a project's grants is cut only where it says
so.
-/

namespace LatteWork

open Fallible Attachments

/-- What is granted: for a project and a path nothing, a file, or a directory. -/
abbrev Granted : Type := GrantKey → Option Bool

/-- An operation grants one path of one project, or takes it back. -/
def Granted.put (granted : Granted) : GrantOp → Granted
  | .grant project path directory => Function.update granted ⟨project, path⟩ (some directory)
  | .revoke project path => Function.update granted ⟨project, path⟩ none

/-- What a list of operations left granted. -/
def Granted.by (ops : List GrantOp) : Granted := ops.foldl Granted.put fun _ => none

/-- A grant is for its target, or a directory's for what is below it. -/
def Covers (path : String) (directory : Bool) (target : List UInt8) : Prop :=
  pathComponents target = pathComponents (pathBytes path) ∨
    directory = true ∧ pathComponents (pathBytes path) <+: pathComponents target

namespace GrantStore

variable {s : GrantStore} {project path : String}

/-- The table has a row for a project and a path, and a project has not too many. -/
structure Bounded (s : GrantStore) : Prop where
  keyed : (s.referenceAccess.map (·.1)).Nodup
  count : ∀ project, (s.rows project).length ≤ maxGrants

def granted (s : GrantStore) : Granted := fun key => s.referenceAccess.lookup key

theorem mem_rows {row : GrantKey × Bool} :
    row ∈ s.rows project ↔ row ∈ s.referenceAccess ∧ row.1.projectId = project := by
  simp [rows]

theorem granted_iff (h : s.Bounded) {directory : Bool} :
    s.granted ⟨project, path⟩ = some directory ↔ (⟨project, path⟩, directory) ∈ s.rows project := by
  simp [granted, Assoc.lookup_eq_some h.keyed, mem_rows]

/-- There is such a project. -/
def Known (s : GrantStore) (project : String) : Prop := ∃ p ∈ s.store.projects, p.id = project

/-- An operation is accepted. A project that has as many grants as it may have gets no new one. -/
def Accepts (s : GrantStore) : GrantOp → Prop
  | .grant project path _ =>
    s.Known project ∧
      ((s.rows project).length < maxGrants ∨ (s.granted ⟨project, path⟩).isSome = true)
  | .revoke project _ => s.Known project

/-- The table after an accepted operation. -/
def put (s : GrantStore) : GrantOp → GrantStore
  | .grant project path directory =>
    { s with referenceAccess := Assoc.put ⟨project, path⟩ directory s.referenceAccess }
  | .revoke project path =>
    { s with referenceAccess := Assoc.drop ⟨project, path⟩ s.referenceAccess }

theorem project_known : (∃ p, s.store.project project = .ok p) ↔ s.Known project := by
  simp only [Store.project, orError_eq_ok, Known]
  rw [← Option.isSome_iff_exists, List.find?_isSome]
  simp

theorem apply_iff {o : GrantOp} {s' : GrantStore} :
    s.apply o = .ok s' ↔ s.Accepts o ∧ s.put o = s' := by
  cases o with
  | grant project path directory =>
    have hknown : ¬(s.store.projects.all (·.id ≠ project)) = true ↔ s.Known project := by
      simp [Known]
    simp only [apply, grantReference, bind_eq_ok, bailIf_eq_ok, Except.ok.injEq, hknown, not_not,
      Accepts, put, granted]
    constructor
    · rintro ⟨_, hroom, _, hknown, heq⟩
      exact ⟨⟨hknown, hroom⟩, heq⟩
    · rintro ⟨⟨hknown, hroom⟩, heq⟩
      exact ⟨(), hroom, (), hknown, heq⟩
  | revoke project path =>
    simp only [apply, revokeReferenceAccess, map_eq_ok, bind_eq_ok, Except.ok.injEq, Accepts, put,
      ← project_known]
    constructor
    · rintro ⟨_, ⟨p, hp, rfl⟩, heq⟩
      exact ⟨⟨p, hp⟩, heq⟩
    · rintro ⟨⟨p, hp⟩, heq⟩
      exact ⟨_, ⟨p, hp, rfl⟩, heq⟩

theorem put_granted (o : GrantOp) : (s.put o).granted = s.granted.put o := by
  funext key
  cases o <;> simp [granted, put, Granted.put, Assoc.lookup_put, Assoc.lookup_drop,
    Function.update_apply]

/-- A row less, if there was one, and no more of any project. -/
theorem length_drop (key : GrantKey) (project : String) :
    ((Assoc.drop key s.referenceAccess).filter (·.1.projectId = project)).length +
      (if key.projectId = project ∧ (s.granted key).isSome = true then 1 else 0) ≤
        (s.rows project).length := by
  have hcomm : (Assoc.drop key s.referenceAccess).filter (·.1.projectId = project) =
      (s.rows project).filter (·.1 ≠ key) := by
    rw [Assoc.drop, rows, List.filter_filter, List.filter_filter]
    simp only [Bool.and_comm]
  rw [hcomm]
  split
  · rename_i hrow
    obtain ⟨directory, hrow'⟩ := Option.isSome_iff_exists.1 hrow.2
    refine List.length_filter_lt_length_iff_exists.2 ⟨(key, directory), ?_, by simp⟩
    exact mem_rows.2 ⟨Assoc.mem_of_lookup hrow', hrow.1⟩
  · exact List.length_filter_le _ _

theorem put_bounded (h : s.Bounded) {o : GrantOp} (ho : s.Accepts o) : (s.put o).Bounded := by
  cases o with
  | revoke project path =>
    refine ⟨Assoc.nodup_drop h.keyed, fun q => ?_⟩
    have hrest := length_drop (s := s) ⟨project, path⟩ q
    have hcount := h.count q
    simp only [put, rows]
    omega
  | grant project path directory =>
    refine ⟨Assoc.nodup_put h.keyed, fun q => ?_⟩
    have hrest := length_drop (s := s) ⟨project, path⟩ q
    have hcount := h.count q
    simp only [put, rows, Assoc.put, List.filter_append, List.length_append]
    by_cases hq : project = q
    · subst hq
      have hone : ([((⟨project, path⟩ : GrantKey), directory)].filter
          (·.1.projectId = project)).length = 1 := by simp
      rcases ho.2 with hroom | hknown
      · omega
      · simp only [hknown, and_self, if_true] at hrest
        omega
    · have hnone : ([((⟨project, path⟩ : GrantKey), directory)].filter
          (·.1.projectId = q)).length = 0 := by simp [hq]
      omega

/-- The accepted operation of an attempt. -/
def accepted (s : GrantStore) (o : GrantOp) : Option GrantOp :=
  match s.apply o with
  | .ok _ => some o
  | .error _ => none

/-- The table holds what the accepted operations left granted, and never too much. -/
theorem after_granted (projects : List Project) (ops : List GrantOp) :
    ((empty projects).after ops).Bounded ∧
      ((empty projects).after ops).store.projects = projects ∧
      ((empty projects).after ops).granted =
        Granted.by (Runs.emitted step accepted (empty projects) ops) := by
  refine Runs.run_induction (s := empty projects) (P := fun ops (t : GrantStore) =>
    t.Bounded ∧ t.store.projects = projects ∧
      t.granted = Granted.by (Runs.emitted step accepted (empty projects) ops))
    ⟨⟨List.nodup_nil, fun _ => Nat.zero_le _⟩, rfl, rfl⟩ (fun ops o ⟨hb, hp, hg⟩ => ?_) ops
  rw [Runs.emitted_concat]
  generalize Runs.run step (empty projects) ops = t at hb hp hg ⊢
  cases ha : t.apply o with
  | error e =>
    rw [step, Runs.attempt_error ha, accepted, ha]
    simpa using ⟨hb, hp, hg⟩
  | ok t' =>
    obtain ⟨haccepts, rfl⟩ := apply_iff.1 ha
    rw [step, Runs.attempt_ok ha, accepted, ha]
    refine ⟨put_bounded hb haccepts, by cases o <;> exact hp, ?_⟩
    rw [put_granted, hg, Option.toList_some, Granted.by, Granted.by, List.foldl_append]
    rfl

/-! ### The list of grants -/

/-- The list shows grants from the front, all of them unless it says that it is cut. -/
theorem listAccess_front : ∀ (count bytes : ℕ) (rows : List (GrantKey × Bool)),
    (listAccess count bytes rows).1 <+: rows.map accessEntry ∧
      ((listAccess count bytes rows).2 = false ↔
        (listAccess count bytes rows).1 = rows.map accessEntry)
  | _, _, [] => by simp [listAccess]
  | count, bytes, row :: rest => by
    have ih := listAccess_front (count + 1) (bytes + (accessEntry row).toJson.size) rest
    simp only [listAccess]
    split
    · simp
    · simpa using ih

theorem take_sorted (h : s.Bounded) {n : ℕ} (hn : maxGrants ≤ n) (project : String) :
    ((s.rows project).insertionSort byPath).take n = (s.rows project).insertionSort byPath :=
  List.take_of_length_le (by rw [List.length_insertionSort]; exact Nat.le_trans (h.count project) hn)

theorem referenceAllowed_iff (h : s.Bounded) {target : List UInt8} :
    s.referenceAllowed project target = true ↔
      ∃ path directory, s.granted ⟨project, path⟩ = some directory ∧ Covers path directory target := by
  have htake := take_sorted h (n := 512) (Nat.le_refl _) project
  simp only [referenceAllowed, htake, List.any_eq_true, List.mem_insertionSort, Bool.or_eq_true,
    Bool.and_eq_true, decide_eq_true_eq, granted_iff h]
  constructor
  · rintro ⟨⟨⟨id, path⟩, directory⟩, hrow, hcovers⟩
    obtain rfl : id = project := (mem_rows.1 hrow).2
    exact ⟨path, directory, hrow, hcovers⟩
  · rintro ⟨path, directory, hrow, hcovers⟩
    exact ⟨_, hrow, hcovers⟩

theorem listReferences_lists (h : s.Bounded) (hp : s.Known project) :
    ∃ entries truncated, s.listReferences project = .ok (entries, truncated) ∧
      (∀ e ∈ entries, s.granted ⟨project, e.path⟩ = some e.directory) ∧
      (truncated = true ∨ ∀ path directory, s.granted ⟨project, path⟩ = some directory →
        ∃ e ∈ entries, e.path = path ∧ e.directory = directory) := by
  obtain ⟨p, hp⟩ := project_known.2 hp
  obtain ⟨hfront, hwhole⟩ := listAccess_front 0 0 ((s.rows project).insertionSort byPath)
  refine ⟨_, _, by rw [listReferences, hp, take_sorted h (by decide)]; rfl, fun e he => ?_, ?_⟩
  · obtain ⟨⟨⟨id, path⟩, directory⟩, hrow, rfl⟩ := List.mem_map.1 (hfront.subset he)
    rw [List.mem_insertionSort] at hrow
    obtain rfl : id = project := (mem_rows.1 hrow).2
    exact (granted_iff h).2 hrow
  · refine (Bool.eq_false_or_eq_true _).imp_right fun hall path directory hgranted => ?_
    rw [hwhole.1 hall]
    have hrow := (List.mem_insertionSort byPath).2 ((granted_iff h).1 hgranted)
    exact ⟨_, List.mem_map_of_mem hrow, rfl, rfl⟩

/-- A revocation takes the grant of its path back, where it is accepted, and no other. -/
theorem step_revoke :
    (∀ key ≠ ⟨project, path⟩, (s.step (.revoke project path)).granted key = s.granted key) ∧
      (s.Known project → (s.step (.revoke project path)).granted ⟨project, path⟩ = none) := by
  rcases ha : s.apply (.revoke project path) with e | t
  · rw [step, Runs.attempt_error ha]
    refine ⟨fun _ _ => rfl, fun hknown => ?_⟩
    have hok := (apply_iff (o := .revoke project path)).2 ⟨hknown, rfl⟩
    rw [hok] at ha
    cases ha
  · rw [step, Runs.attempt_ok ha, ← (apply_iff.1 ha).2, put_granted, Granted.put]
    exact ⟨fun key hkey => Function.update_of_ne hkey _ _, fun _ => Function.update_self _ _ _⟩

/-- Access equals the grants, over every run. -/
theorem grants_exact (projects : List Project) (ops : List GrantOp) (project : String) :
    let s := (empty projects).after ops
    let granted := Granted.by (Runs.emitted step accepted (empty projects) ops)
    (s.rows project).length ≤ 512 ∧
    (∀ target, s.referenceAllowed project target = true ↔
      ∃ path directory, granted ⟨project, path⟩ = some directory ∧ Covers path directory target) ∧
    (∀ path, (∀ key ≠ ⟨project, path⟩, (s.step (.revoke project path)).granted key = granted key) ∧
      ((∃ p ∈ projects, p.id = project) →
        (s.step (.revoke project path)).granted ⟨project, path⟩ = none)) ∧
    ((∃ p ∈ projects, p.id = project) →
      ∃ entries truncated, s.listReferences project = .ok (entries, truncated) ∧
        (∀ e ∈ entries, granted ⟨project, e.path⟩ = some e.directory) ∧
        (truncated = true ∨ ∀ path directory, granted ⟨project, path⟩ = some directory →
          ∃ e ∈ entries, e.path = path ∧ e.directory = directory)) := by
  intro s granted
  obtain ⟨hbounded, hprojects, hgranted⟩ :
      s.Bounded ∧ s.store.projects = projects ∧ s.granted = granted := after_granted projects ops
  have hknown : (∃ p ∈ projects, p.id = project) → s.Known project := by
    rw [Known, hprojects]
    exact id
  rw [← hgranted]
  exact ⟨hbounded.count project, fun _ => referenceAllowed_iff hbounded,
    fun path => ⟨step_revoke.1, fun hp => step_revoke.2 (hknown hp)⟩,
    fun hp => listReferences_lists hbounded (hknown hp)⟩

/-- A directory is granted, then a file of its name, and a directory whose name goes on. -/
theorem grants_exact_replaced :
    let s := (empty [{ id := "p", name := "p", path := "/p" }]).after
      [.grant "p" "/a/b" true, .grant "p" "/a/b" false, .grant "p" "/a/bc" true]
    ∃ entries truncated, s.listReferences "p" = .ok (entries, truncated) ∧
      (truncated = true ∨ ∃ e ∈ entries, e.path = "/a/b" ∧ e.directory = false) := by
  obtain ⟨entries, truncated, hok, -, hall⟩ :=
    (grants_exact [{ id := "p", name := "p", path := "/p" }]
      [.grant "p" "/a/b" true, .grant "p" "/a/b" false, .grant "p" "/a/bc" true] "p").2.2.2
      ⟨_, List.mem_cons_self, rfl⟩
  exact ⟨entries, truncated, hok, hall.imp_right fun h => h "/a/b" false (by decide +kernel)⟩

example : pathComponents (pathBytes "/a/b") <+: pathComponents (pathBytes "/a/./b//c") ∧
    ¬pathComponents (pathBytes "/a/b") <+: pathComponents (pathBytes "/a/bc") := by decide +kernel

end GrantStore

end LatteWork
