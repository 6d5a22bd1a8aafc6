import LatteWork.Proofs.UndoRestores

/-!
# What an undo does to permissions

The paths of a turn's list are put back with their permission bits. A path whose contents are the
same in both snapshots is not on the list, whatever became of its mode: an undo leaves it as it is
(`undo_permissions`).
-/

namespace LatteWork

open Fallible Table

/-- The permission bits of a file. -/
def Disk.permissions (d : Disk) (path : List String) : Option ℕ :=
  match d.node path with
  | some (.file _ mode) => some (mode % 0o1000)
  | _ => none

/-- Both snapshots have a file at a path, and the first one has this mode of it. -/
def Snapshot.BothRecord (before after : Snapshot) (path : String) (mode : ℕ) : Prop :=
  (before.contents path).isSome ∧ (after.contents path).isSome ∧
    before.modes.lookup path = some mode

theorem Disk.permissions_congr {disk disk' : Disk} {path : List String}
    (h : disk'.node path = disk.node path) : disk'.permissions path = disk.permissions path := by
  rw [permissions, permissions, h]

theorem Snapshot.GivenBack.permissions {svc : Services} {s : Snapshot} {disk : Disk}
    {path : String} {mode : ℕ} (h : s.GivenBack svc disk path) (hsome : (s.contents path).isSome)
    (hmode : s.modes.lookup path = some mode) :
    disk.permissions (components path) = some (mode % 0o1000) := by
  obtain ⟨c, hc⟩ := Option.isSome_iff_exists.1 hsome
  rw [GivenBack, hc] at h
  obtain ⟨bytes, mode', -, hmode', hnode⟩ := h
  obtain rfl := Option.some.inj (hmode.symm.trans hmode')
  rw [Disk.permissions, hnode]
  simp only [regularMode, Option.some.injEq]
  omega

namespace FrozenTurn

variable {svc : Services} {objects : Objects} {t : FrozenTurn} {disk disk' : Disk} {path : String}

/-- A path that was put back changed there and nowhere else. -/
theorem restorePath_ok {fails : Bool} (h : t.restorePath svc objects fails disk path = .ok disk') :
    ∃ node, disk' = disk.set (components path) node ∧ t.PutBack svc objects disk' path := by
  rcases hb : t.before.contents path with _ | c
  · simp only [restorePath, hb, bind_eq_ok] at h
    obtain ⟨_, -, _, -, _, -, _, -, h⟩ := h
    obtain rfl := Except.ok.inj h
    exact ⟨none, rfl, by simp [PutBack, hb]⟩
  · simp only [restorePath, hb, bind_eq_ok, orError_eq_ok] at h
    obtain ⟨_, -, mode, hmode, _, -, bytes, hload, _, -, _, -, h⟩ := h
    obtain rfl := Except.ok.inj h
    exact ⟨some (.file bytes (regularMode (mode % 0o1000))), rfl, by simp [PutBack, hb, hload, hmode]⟩

/-- A loop that ends well has put every path back and touched nothing else. -/
theorem restoreLoop_ok : ∀ {todo : List (String × Bool)} {disk disk' : Disk},
    t.restoreLoop svc objects todo disk = (disk', .ok ()) →
    (todo.map fun p => components p.1).Nodup →
      (∀ p ∈ todo, t.PutBack svc objects disk' p.1) ∧
        ∀ place, (∀ p ∈ todo, place ≠ components p.1) → disk'.node place = disk.node place
  | [], disk, disk', h, _ => by
    obtain ⟨rfl, -⟩ := Prod.mk.inj h
    simp
  | (path, fails) :: rest, disk, disk', h, hnodup => by
    rw [List.map_cons, List.nodup_cons] at hnodup
    obtain ⟨hfresh, hnodup⟩ := hnodup
    rw [restoreLoop] at h
    rcases hstep : t.restorePath svc objects fails disk path with e | next
    · simp [hstep] at h
    · simp only [hstep] at h
      obtain ⟨node, rfl, hback⟩ := restorePath_ok hstep
      obtain ⟨hall, hframe⟩ := restoreLoop_ok h hnodup
      have hkept : disk'.node (components path) =
          (disk.set (components path) node).node (components path) :=
        hframe _ fun p hp heq => hfresh (List.mem_map.2 ⟨p, hp, heq.symm⟩)
      refine ⟨List.forall_mem_cons.2 ⟨?_, hall⟩, fun place hplace => ?_⟩
      · unfold PutBack at hback ⊢
        rwa [hkept]
      · obtain ⟨hp, hplace⟩ := List.forall_mem_cons.1 hplace
        rw [hframe place hplace, Disk.set_node_of_ne hp]

end FrozenTurn

/-- Undoing a frozen turn, when the validation passes and the restore succeeds. Every path that both
snapshots have a file at ends with the permission bits of the first one, if and only if the paths
with the same contents in both had them before. -/
theorem undo_permissions (svc : Services) (objects₀ objects₁ objects : Objects) (requestId : String)
    (before after before' after' : Snapshot) (interrupted backgroundPending : Bool)
    (summary : ChangeSummary) (turn t' : FrozenTurn) (disk disk' : Disk) (fails : String → Bool)
    (hb : before.materialized svc objects₀ = .ok before')
    (ha : after.materialized svc objects₀ = .ok after')
    (hsummary : before'.compareLoaded svc objects₀ after' = .ok summary)
    (hfreeze : FrozenTurn.freezeInner svc objects₀ requestId before after interrupted
      backgroundPending = .ok (turn, objects₁))
    (hspelled : ∀ path ∈ before'.paths after', Spelled path)
    (hkb : Kept svc objects svc.parseSnapshot
      (before'.retain (summary.entries.map (·.path))).toJson.bytes
      (before'.retain (summary.entries.map (·.path))).stored)
    (hka : Kept svc objects svc.parseSnapshot
      (after'.retain (summary.entries.map (·.path))).toJson.bytes
      (after'.retain (summary.entries.map (·.path))).stored)
    (hks : Kept svc objects svc.parseSummary summary.toJson.bytes summary)
    (hvalidate : turn.attach.validateUndo svc objects disk = .ok ())
    (hrestore : (turn.attach.mark .unknown).checkUndo svc objects fails disk true =
      (disk', .ok t')) :
    (∀ path mode, before'.BothRecord after' path mode →
      disk'.permissions (components path) = some (mode % 0o1000)) ↔
    ∀ path mode, before'.BothRecord after' path mode → before'.differ svc after' path = false →
      disk.permissions (components path) = some (mode % 0o1000) := by
  obtain ⟨loaded, hloaded, -, hwhole, havailable, -, -⟩ := FrozenTurn.validateUndo_passed hvalidate
  obtain ⟨-, hentries, htruncated, hunavailable, hsb, -⟩ :=
    freeze_loads hb ha hsummary hfreeze hkb hka hks hloaded
  have hlist : summary.entries.map (·.path) =
      (before'.paths after').filter (before'.differ svc after') :=
    Snapshot.compareLoaded_paths hsummary (htruncated ▸ hwhole) (hunavailable ▸ havailable)
  have hmem (path : String) : path ∈ summary.entries.map (·.path) ↔
      before'.differ svc after' path = true := by
    rw [hlist, List.mem_filter]
    exact ⟨fun h => h.2, fun h => ⟨Snapshot.mem_paths_of_differ h, h⟩⟩
  have hnodup : ((summary.entries.map (·.path)).map components).Nodup := by
    rw [hlist]
    exact components_nodup (fun p hp => hspelled p (List.mem_filter.1 hp).1)
      ((List.nodup_dedup _).filter _)
  -- the loop ran over the listed paths
  obtain ⟨hback, hframe⟩ : (∀ path ∈ summary.entries.map (·.path), before'.GivenBack svc disk' path) ∧
      ∀ place, (∀ path ∈ summary.entries.map (·.path), place ≠ components path) →
        disk'.node place = disk.node place := by
    simp only [FrozenTurn.checkUndo, FrozenTurn.restore,
      FrozenTurn.materialized_mark hloaded .unknown, if_true] at hrestore
    obtain ⟨rfl, hresult⟩ := Prod.mk.inj hrestore
    obtain ⟨_, hresult, -⟩ := map_eq_ok.1 hresult
    obtain ⟨hback, hframe⟩ := FrozenTurn.restoreLoop_ok (Prod.ext rfl hresult) (by
      rw [show (loaded.mark .unknown).changes.summary.entries = summary.entries from hentries]
      simpa [List.map_map, Function.comp_def] using hnodup)
    rw [show (loaded.mark .unknown).changes.summary.entries = summary.entries from hentries]
      at hback hframe ⊢
    refine ⟨fun path hpath => ?_, fun place hplace => hframe place fun p hp => ?_⟩
    · obtain ⟨e, he, rfl⟩ := mem_of_path hpath
      exact (hback _ (List.mem_map_of_mem he)).givenBack hpath hsb
    · obtain ⟨e, he, rfl⟩ := List.mem_map.1 hp
      exact hplace _ (List.mem_map_of_mem he)
  have hunlisted {path : String} {mode : ℕ} (h : before'.BothRecord after' path mode)
      (hsame : before'.differ svc after' path = false) :
      disk'.permissions (components path) = disk.permissions (components path) := by
    refine Disk.permissions_congr (hframe _ fun q hq heq => ?_)
    have hqdiffer := (hmem q).1 hq
    rw [← (hspelled path (Snapshot.mem_paths_of_contents (.inl h.1))).eq
      (hspelled q (Snapshot.mem_paths_of_differ hqdiffer)) heq, hsame] at hqdiffer
    exact Bool.false_ne_true hqdiffer
  constructor
  · intro h path mode hrecord hsame
    rw [← hunlisted hrecord hsame]
    exact h path mode hrecord
  · intro h path mode hrecord
    rcases hdiffer : before'.differ svc after' path with _ | _
    · rw [hunlisted hrecord hdiffer]
      exact h path mode hrecord hdiffer
    · exact (hback path ((hmem path).2 hdiffer)).permissions hrecord.1 hrecord.2.2

/-! ### A turn that wrote `b` over `a` and made another file executable -/

/-- A worktree with the files `d/f` and `d/g`. -/
def twoFiles (atMs : ℕ) (sha : String) (mode : ℕ) : Snapshot where
  atMs := atMs
  rootIdentity := some (1, 2)
  files := [("d/f", some (.object { key := sha, size := 1, attached := true })),
    ("d/g", some (.object { key := shaOfA, size := 1, attached := true }))]
  storage := true
  modes := [("d/f", 0o100644), ("d/g", mode)]

/-- The project after that turn. -/
def executableDisk : Disk where
  identity := some (1, 2)
  node
    | [] => some (.dir true)
    | ["d"] => some (.dir true)
    | ["d", "f"] => some (.file [98] 0o100644)
    | ["d", "g"] => some (.file [97] 0o100755)
    | _ => none

theorem twoFiles_frozen : FrozenTurn.freezeInner editServices contentObjects "r"
    (twoFiles 1 shaOfA 0o100644) (twoFiles 2 shaOfB 0o100755) false false =
      .ok (editTurn, editObjects) := by
  decide +kernel

/-- The project after the undo. -/
def undoneDisk : Disk :=
  ((editTurn.attach.mark .unknown).checkUndo editServices editObjects (fun _ => false)
    executableDisk true).1

theorem twoFiles_restored : (editTurn.attach.mark .unknown).checkUndo editServices editObjects
    (fun _ => false) executableDisk true = (undoneDisk, .ok (editTurn.attach.mark .unknown)) := by
  have hok : ((editTurn.attach.mark .unknown).checkUndo editServices editObjects (fun _ => false)
      executableDisk true).2 = .ok (editTurn.attach.mark .unknown) := by decide +kernel
  rw [undoneDisk, ← hok]

theorem undo_permissions_twoFiles :
    (∀ path mode, (twoFiles 1 shaOfA 0o100644).BothRecord (twoFiles 2 shaOfB 0o100755) path mode →
      undoneDisk.permissions (components path) = some (mode % 0o1000)) ↔
    ∀ path mode, (twoFiles 1 shaOfA 0o100644).BothRecord (twoFiles 2 shaOfB 0o100755) path mode →
      (twoFiles 1 shaOfA 0o100644).differ editServices (twoFiles 2 shaOfB 0o100755) path = false →
        executableDisk.permissions (components path) = some (mode % 0o1000) :=
  undo_permissions editServices contentObjects editObjects editObjects "r"
    (twoFiles 1 shaOfA 0o100644) (twoFiles 2 shaOfB 0o100755) (twoFiles 1 shaOfA 0o100644)
    (twoFiles 2 shaOfB 0o100755) false false editSummary editTurn (editTurn.attach.mark .unknown)
    executableDisk undoneDisk (fun _ => false) rfl rfl (by decide +kernel) twoFiles_frozen
    (by decide +kernel)
    (kept_of_lookup (by decide +kernel) (by decide +kernel))
    (kept_of_lookup (by decide +kernel) (by decide +kernel))
    (kept_of_lookup (by decide +kernel) (by decide +kernel))
    (by decide +kernel) twoFiles_restored

/-- The undo of that turn is validated and succeeds, and `d/g` stays executable. -/
theorem undo_leaves_mode :
    FrozenTurn.freezeInner editServices contentObjects "r" (twoFiles 1 shaOfA 0o100644)
        (twoFiles 2 shaOfB 0o100755) false false = .ok (editTurn, editObjects) ∧
      editTurn.attach.validateUndo editServices editObjects executableDisk = .ok () ∧
      (editTurn.attach.mark .unknown).checkUndo editServices editObjects (fun _ => false)
        executableDisk true = (undoneDisk, .ok (editTurn.attach.mark .unknown)) ∧
      (twoFiles 1 shaOfA 0o100644).BothRecord (twoFiles 2 shaOfB 0o100755) "d/g" 0o100644 ∧
      undoneDisk.permissions (components "d/g") ≠ some (0o100644 % 0o1000) := by
  exact ⟨twoFiles_frozen, by decide +kernel, twoFiles_restored,
    ⟨by decide +kernel, by decide +kernel, by decide +kernel⟩, by decide +kernel⟩

end LatteWork
