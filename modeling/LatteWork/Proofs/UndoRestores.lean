import LatteWork.Proofs.ChangeLists
import LatteWork.Snapshot.Undo

/-!
# An undo puts back exactly the turn

A path that passes the check is a file or nothing, below directories only, so no listed path lies
below another. Putting one back changes no other, and the check goes on passing for those that are
left: the loop ends (`restoreLoop_all`). What it puts back is what the snapshot before the turn
recorded, through compaction, the object files and back (`freeze_loads`).
-/

namespace LatteWork

open Fallible Table

namespace FrozenTurn

variable {svc : Services} {objects : Objects} {t : FrozenTurn} {disk disk' : Disk} {path : String}

theorem walk_congr : ∀ {rest above : List String},
    (∀ front, front ≠ [] → front <+: rest → disk'.node (above ++ front) = disk.node (above ++ front)) →
      walk disk' path above rest = walk disk path above rest
  | [], _, _ => rfl
  | c :: rest, above, h => by
    have hhere := h [c] (by simp) ⟨rest, rfl⟩
    have hbelow : walk disk' path (above ++ [c]) rest = walk disk path (above ++ [c]) rest := by
      refine walk_congr fun front hne hfront => ?_
      have := h (c :: front) (by simp) ((List.cons_prefix_cons).2 ⟨rfl, hfront⟩)
      simpa using this
    simp only [walk, hhere, hbelow]

/-- A walk passes directories and ends at what is neither a directory's name for Git nor a
link. -/
theorem walk_passes {u : Unit} : ∀ {rest above : List String},
    walk disk path above rest = .ok u →
      ".git" ∉ rest ∧ ∀ front, front ≠ [] → front <+: rest →
        disk.node (above ++ front) ≠ some .symlink ∧
          (front ≠ rest → ∃ w, disk.node (above ++ front) = some (.dir w))
  | [], _, _ => ⟨by simp, fun front hne hfront => absurd (List.prefix_nil.1 hfront) hne⟩
  | c :: rest, above, h => by
    rw [walk] at h
    split at h
    · simp at h
    rename_i hgit
    -- what is at the first component, and that the walk goes on behind it
    obtain ⟨hlink, hdir, hrest⟩ : disk.node (above ++ [c]) ≠ some .symlink ∧
        (rest ≠ [] → ∃ w, disk.node (above ++ [c]) = some (.dir w)) ∧
        walk disk path (above ++ [c]) rest = .ok u := by
      rcases hn : disk.node (above ++ [c]) with _ | node <;> rw [hn] at h
      · simp only at h
        split at h
        · rename_i hlast
          subst hlast
          exact ⟨by simp, fun hne => absurd rfl hne, rfl⟩
        · simp at h
      · cases node with
        | symlink => simp at h
        | dir w =>
          simp only [Node.isDir, not_true_eq_false, and_false, if_false] at h
          exact ⟨by simp, fun _ => ⟨w, rfl⟩, h⟩
        | _ =>
          simp only [Node.isDir, Bool.false_eq_true, not_false_eq_true, and_true] at h
          split at h
          · simp at h
          · rename_i hlast
            exact ⟨by simp, fun hne => absurd hne hlast, h⟩
    obtain ⟨hgitRest, hbelow⟩ := walk_passes hrest
    refine ⟨by simp [Ne.symm hgit, hgitRest], fun front hne hfront => ?_⟩
    obtain ⟨d, front, rfl⟩ := List.exists_cons_of_ne_nil hne
    obtain ⟨rfl, hbehind⟩ := List.cons_prefix_cons.1 hfront
    rcases front with _ | ⟨e, front⟩
    · exact ⟨hlink, fun h => hdir fun hnil => h (by rw [hnil])⟩
    · have := hbelow (e :: front) (by simp) hbehind
      simpa using this

/-- What the snapshot after the turn says of a path is what is there. -/
def Current (svc : Services) (t : FrozenTurn) (disk : Disk) (path : String) : Prop :=
  match t.after.contents path with
  | none => disk.node (components path) = none
  | some contents => ∃ bytes mode, disk.node (components path) = some (.file bytes mode) ∧
      contents.Records svc bytes ∧ t.after.modes.lookup path = some mode

/-- A path that passes the check: its directories are directories, and the path itself is as the
snapshot after the turn has it. -/
structure Verified (svc : Services) (t : FrozenTurn) (disk : Disk) (path : String) : Prop where
  root : t.checkRoot disk = .ok ()
  noGit : ".git" ∉ components path
  noLink : ∀ front, front ≠ [] → front <+: components path → disk.node front ≠ some .symlink
  dirs : ∀ front, front ≠ [] → front <+: components path → front ≠ components path →
    ∃ w, disk.node front = some (.dir w)
  current : t.Current svc disk path

theorem verifyCurrent_verified (h : t.verifyCurrent svc disk path = .ok ()) :
    t.Verified svc disk path := by
  simp only [verifyCurrent, bind_eq_ok] at h
  obtain ⟨_, hroot, _, -, _, hwalk, hleaf⟩ := h
  obtain ⟨hgit, hfronts⟩ := walk_passes hwalk
  refine ⟨hroot, hgit, fun front hne hfront => (hfronts front hne hfront).1,
    fun front hne hfront => (hfronts front hne hfront).2, ?_⟩
  unfold Current
  split at hleaf
  · rename_i hnode hnone
    rw [hnone]
    exact hnode
  · rename_i bytes mode contents hnode hsome
    rw [bailIf_eq_ok, not_or, not_not, not_not] at hleaf
    rw [hsome]
    exact ⟨bytes, mode, hnode, Contents.matches_iff.1 hleaf.1, hleaf.2⟩
  · simp at hleaf

/-- The check reads the names along the path only. -/
theorem verifyCurrent_congr (hid : disk'.identity = disk.identity)
    (hlink : disk'.isSymlink = disk.isSymlink)
    (h : ∀ front, front <+: components path → disk'.node front = disk.node front) :
    t.verifyCurrent svc disk' path = t.verifyCurrent svc disk path := by
  have hwalk : walk disk' path [] (components path) = walk disk path [] (components path) :=
    walk_congr fun front _ hfront => h front hfront
  have hleaf := h (components path) List.prefix_rfl
  simp only [verifyCurrent, checkRoot, hid, hlink, hwalk, hleaf]

/-- A listed path is a file or nothing, never a directory. -/
theorem Verified.not_dir (h : t.Verified svc disk path) (w : Bool) :
    disk.node (components path) ≠ some (.dir w) := by
  have hcur := h.current
  unfold Current at hcur
  split at hcur
  · simp [hcur]
  · obtain ⟨bytes, mode, hnode, -⟩ := hcur
    simp [hnode]

/-- No listed path lies on the way to another one. -/
theorem Verified.not_prefix {other : String} (h : t.Verified svc disk path)
    (ho : t.Verified svc disk other) (hne : components path ≠ components other)
    (hroot : components path ≠ []) : ¬components path <+: components other := by
  intro hpre
  obtain ⟨w, hw⟩ := ho.dirs _ hroot hpre hne
  exact h.not_dir w hw

/-- A path that can be put back: it passes the check, its directory can be changed, what was there
before is recorded and readable, and when nothing was, something is there now. -/
structure Restorable (svc : Services) (objects : Objects) (t : FrozenTurn) (disk : Disk)
    (path : String) : Prop where
  verified : t.verifyCurrent svc disk path = .ok ()
  writable : disk.writable (components path).dropLast = true
  recorded : ∀ c, t.before.contents path = some c →
    (∃ mode, t.before.modes.lookup path = some mode) ∧ ∃ bytes, c.load svc objects = .ok bytes
  present : t.before.contents path = none → (t.after.contents path).isSome

/-- A path is as the snapshot before the turn has it. -/
def PutBack (svc : Services) (objects : Objects) (t : FrozenTurn) (disk : Disk) (path : String) :
    Prop :=
  match t.before.contents path with
  | none => disk.node (components path) = none
  | some c => ∃ bytes mode, c.load svc objects = .ok bytes ∧
      t.before.modes.lookup path = some mode ∧
      disk.node (components path) = some (.file bytes (regularMode (mode % 0o1000)))

theorem Restorable.ne_nil (h : t.Restorable svc objects disk path) : components path ≠ [] := by
  intro hnil
  have hdir := h.writable
  rw [hnil, List.dropLast_nil, Disk.writable, decide_eq_true_eq] at hdir
  exact (verifyCurrent_verified h.verified).not_dir true (by rw [hnil, hdir])

theorem Restorable.restores (h : t.Restorable svc objects disk path) :
    ∃ node, t.restorePath svc objects false disk path = .ok (disk.set (components path) node) ∧
      t.PutBack svc objects (disk.set (components path) node) path := by
  have hcur := (verifyCurrent_verified h.verified).current
  rcases hb : t.before.contents path with _ | c
  · obtain ⟨d, hd⟩ := Option.isSome_iff_exists.1 (h.present hb)
    simp only [Current, hd] at hcur
    obtain ⟨bytes, mode, hnode, -⟩ := hcur
    refine ⟨none, ?_, by simp [PutBack, hb]⟩
    simp [restorePath, h.verified, hb, hnode, h.writable, bailIf, bind, Except.bind]
  · obtain ⟨⟨mode, hmode⟩, bytes, hload⟩ := h.recorded c hb
    refine ⟨some (.file bytes (regularMode (mode % 0o1000))), ?_, ?_⟩
    · simp [restorePath, h.verified, hb, hmode, hload, h.writable, bailIf, orError, bind, Except.bind]
    · simp [PutBack, hb, hmode, hload]

/-- Putting one listed path back leaves the others as they were. -/
theorem Restorable.set {other : String} {node : Option Node} (h : t.Restorable svc objects disk path)
    (ho : t.Restorable svc objects disk other) (hne : components path ≠ components other) :
    t.Restorable svc objects (disk.set (components path) node) other := by
  have hpath := verifyCurrent_verified h.verified
  have hother := verifyCurrent_verified ho.verified
  have happart := hpath.not_prefix hother hne h.ne_nil
  refine ⟨?_, ?_, ho.recorded, ho.present⟩
  · have hsame : t.verifyCurrent svc (disk.set (components path) node) other =
        t.verifyCurrent svc disk other :=
      verifyCurrent_congr rfl rfl fun front hfront =>
        Disk.set_node_of_ne fun heq => happart (heq ▸ hfront)
    rw [hsame]
    exact ho.verified
  · have hdir := ho.writable
    have hparent : (components other).dropLast ≠ components path := fun heq =>
      happart (heq ▸ List.dropLast_prefix _)
    rw [Disk.writable, Disk.set_node_of_ne hparent]
    exact hdir

/-- The loop puts every listed path back and touches nothing else. -/
theorem restoreLoop_all : ∀ (todo : List String) (disk : Disk),
    (∀ path ∈ todo, t.Restorable svc objects disk path) → (todo.map components).Nodup →
      ∃ disk', t.restoreLoop svc objects (todo.map fun path => (path, false)) disk =
          (disk', .ok ()) ∧
        (∀ path ∈ todo, t.PutBack svc objects disk' path) ∧
        ∀ place, (∀ path ∈ todo, place ≠ components path) → disk'.node place = disk.node place
  | [], disk, _, _ => ⟨disk, rfl, by simp, fun _ _ => rfl⟩
  | path :: rest, disk, h, hnodup => by
    rw [List.map_cons, List.nodup_cons] at hnodup
    obtain ⟨hfresh, hnodup⟩ := hnodup
    have hpath := h path List.mem_cons_self
    have happart : ∀ other ∈ rest, components path ≠ components other := fun other hother heq =>
      hfresh (heq ▸ List.mem_map_of_mem hother)
    obtain ⟨node, hstep, hback⟩ := hpath.restores
    obtain ⟨disk', hloop, hall, hframe⟩ := restoreLoop_all rest (disk.set (components path) node)
      (fun other hother =>
        hpath.set (h other (List.mem_cons_of_mem _ hother)) (happart other hother)) hnodup
    have hkept : disk'.node (components path) = (disk.set (components path) node).node
        (components path) := hframe _ happart
    refine ⟨disk', by simp [restoreLoop, hstep, hloop], ?_, ?_⟩
    · intro other hother
      rcases List.mem_cons.1 hother with rfl | hother
      · unfold PutBack at hback ⊢
        rwa [hkept]
      · exact hall other hother
    · intro place hplace
      obtain ⟨hp, hplace⟩ := List.forall_mem_cons.1 hplace
      rw [hframe place hplace, Disk.set_node_of_ne hp]

end FrozenTurn

/-- A path is the file a snapshot recorded, with its `st_mode`, or is absent as it was. -/
def Snapshot.Found (svc : Services) (s : Snapshot) (disk : Disk) (path : String) : Prop :=
  match s.contents path with
  | none => disk.node (components path) = none
  | some c => ∃ bytes mode, disk.node (components path) = some (.file bytes mode) ∧
      c.Records svc bytes ∧ s.modes.lookup path = some mode

/-- A path is a file with the bytes and the permission bits a snapshot recorded, or is absent. -/
def Snapshot.GivenBack (svc : Services) (s : Snapshot) (disk : Disk) (path : String) : Prop :=
  match s.contents path with
  | none => disk.node (components path) = none
  | some c => ∃ bytes mode, c.Records svc bytes ∧ s.modes.lookup path = some mode ∧
      disk.node (components path) = some (.file bytes (regularMode (mode % 0o1000)))

theorem load_records {svc : Services} {objects : Objects} {c : Contents} {bytes : List UInt8}
    (h : c.load svc objects = .ok bytes) : c.Records svc bytes := by
  cases c with
  | legacy b =>
    obtain rfl := Except.ok.inj h
    exact ⟨rfl, rfl⟩
  | object o =>
    simp only [Contents.load, Object.checked, Object.path, bind_eq_ok, bailIf_eq_ok, not_not] at h
    obtain ⟨found, ⟨_, -, _, -, _, -, _, hsize, hfound⟩, _, hsha, h⟩ := h
    obtain rfl := Except.ok.inj hfound
    obtain rfl := Except.ok.inj h
    exact ⟨hsize, hsha⟩

namespace FrozenTurn

variable {svc : Services} {objects : Objects} {t loaded : FrozenTurn} {disk : Disk} {path : String}

theorem materialized_mark (h : t.materialized svc objects = .ok loaded) (u : TurnUndoStatus) :
    (t.mark u).materialized svc objects = .ok (loaded.mark u) := by
  simp only [materialized, bind_eq_ok] at h ⊢
  obtain ⟨summary, hs, b, hb, a, ha, h⟩ := h
  obtain rfl := Except.ok.inj h
  exact ⟨summary, hs, b, hb, a, ha, rfl⟩

theorem Restorable.mark (h : t.Restorable svc objects disk path) (u : TurnUndoStatus) :
    (t.mark u).Restorable svc objects disk path :=
  ⟨h.verified, h.writable, h.recorded, h.present⟩

theorem PutBack.givenBack {s : Snapshot} {listed : List String} (hpath : path ∈ listed)
    (hsame : SameData (s.retain listed) t.before) (h : t.PutBack svc objects disk path) :
    s.GivenBack svc disk path := by
  have hcontents := hsame.contents path
  rw [retain_contents, if_pos hpath] at hcontents
  unfold PutBack at h
  unfold Snapshot.GivenBack
  rcases hs : s.contents path with _ | c <;> rw [hs] at hcontents <;>
    simp only [hcontents, Option.map_none, Option.map_some] at h ⊢
  · exact h
  · obtain ⟨bytes, mode, hload, hmode, hnode⟩ := h
    rw [hsame.modes, retain_modes hpath (by rw [hs]; rfl)] at hmode
    exact ⟨bytes, mode, attach_records.1 (load_records hload), hmode, hnode⟩

theorem Current.found {s : Snapshot} {listed : List String} (hpath : path ∈ listed)
    (hsame : SameData (s.retain listed) t.after) (h : t.Current svc disk path) :
    s.Found svc disk path := by
  have hcontents := hsame.contents path
  rw [retain_contents, if_pos hpath] at hcontents
  unfold Current at h
  unfold Snapshot.Found
  rcases hs : s.contents path with _ | c <;> rw [hs] at hcontents <;>
    simp only [hcontents, Option.map_none, Option.map_some] at h ⊢
  · exact h
  · obtain ⟨bytes, mode, hnode, hrecords, hmode⟩ := h
    rw [hsame.modes, retain_modes hpath (by rw [hs]; rfl)] at hmode
    exact ⟨bytes, mode, hnode, attach_records.1 hrecords, hmode⟩

/-- What a passed validation says of the turn that was read back. -/
theorem validateUndo_passed (h : t.validateUndo svc objects disk = .ok ()) :
    ∃ loaded, t.materialized svc objects = .ok loaded ∧ loaded.changes.undo = .ready ∧
      loaded.changes.summary.truncated = false ∧ loaded.changes.summary.unavailable = none ∧
      loaded.checkRoot disk = .ok () ∧ ∀ e ∈ loaded.changes.summary.entries,
        ((loaded.before.contents e.path).isSome → (loaded.before.modes.lookup e.path).isSome) ∧
          loaded.verifyCurrent svc disk e.path = .ok () := by
  simp only [validateUndo, validateUndoLoaded, bind_eq_ok, bailIf_eq_ok, not_or, not_not,
    forM_eq_ok] at h
  obtain ⟨loaded, hloaded, _, ⟨hready, hwhole, havailable, -, -⟩, _, hroot, _, -, hall⟩ := h
  refine ⟨loaded, hloaded, hready, Bool.eq_false_iff.2 hwhole,
    by simpa using havailable, hroot, fun e he => ?_⟩
  obtain ⟨_, hmode, hcurrent⟩ := by simpa only [validatePathOf, bind_eq_ok, bailIf_eq_ok] using hall e he
  refine ⟨fun hsome => ?_, hcurrent⟩
  rcases hl : loaded.before.modes.lookup e.path with _ | m
  · exact absurd ⟨hsome, by rw [hl]; rfl⟩ hmode
  · rfl

end FrozenTurn

theorem mem_of_path {entries : List TaskChange} {path : String}
    (h : path ∈ entries.map (·.path)) : ∃ e ∈ entries, e.path = path :=
  List.mem_map.1 h

theorem components_nodup {paths : List String} (hspelled : ∀ p ∈ paths, Spelled p)
    (hnodup : paths.Nodup) : (paths.map components).Nodup :=
  hnodup.map_on fun p hp q hq heq => (hspelled p hp).eq (hspelled q hq) heq

/-- Undoing a frozen turn. The turn was made of the snapshots `before'` and `after'`, stored, and is
read back later, on whatever is on the disk then. If the validation passes, the directories of the
listed paths can be changed and the recorded contents can be read, the restore succeeds: every path
of the complete list is as it was before the turn, and every other place is unchanged. If a listed
path is not as it was after the turn, lies behind a symbolic link or is Git's own, or the root is
another directory, the validation fails and the disk is unchanged. -/
theorem undo_restores (svc : Services) (objects₀ objects₁ objects : Objects) (requestId : String)
    (before after before' after' : Snapshot) (interrupted backgroundPending : Bool)
    (summary : ChangeSummary) (turn : FrozenTurn) (disk : Disk)
    (hb : before.materialized svc objects₀ = .ok before')
    (ha : after.materialized svc objects₀ = .ok after')
    (hsummary : before'.compareLoaded svc objects₀ after' = .ok summary)
    (hfreeze : FrozenTurn.freezeInner svc objects₀ requestId before after interrupted
      backgroundPending = .ok (turn, objects₁))
    (hspelled : ∀ e ∈ summary.entries, Spelled e.path)
    (hkb : Kept svc objects svc.parseSnapshot
      (before'.retain (summary.entries.map (·.path))).toJson.bytes
      (before'.retain (summary.entries.map (·.path))).stored)
    (hka : Kept svc objects svc.parseSnapshot
      (after'.retain (summary.entries.map (·.path))).toJson.bytes
      (after'.retain (summary.entries.map (·.path))).stored)
    (hks : Kept svc objects svc.parseSummary summary.toJson.bytes summary) :
    (turn.attach.validateUndo svc objects disk = .ok () →
      (∀ e ∈ summary.entries, disk.writable (components e.path).dropLast = true) →
      (∀ e ∈ summary.entries, ∀ c, before'.contents e.path = some c →
        ∃ bytes, c.attach.load svc objects = .ok bytes) →
      summary.entries.map (·.path) = (before'.paths after').filter (before'.differ svc after') ∧
      ∃ disk', (turn.attach.mark .unknown).checkUndo svc objects (fun _ => false) disk true =
          (disk', .ok (turn.attach.mark .unknown)) ∧
        (∀ e ∈ summary.entries, before'.GivenBack svc disk' e.path) ∧
        ∀ place, (∀ e ∈ summary.entries, place ≠ components e.path) →
          disk'.node place = disk.node place) ∧
    ((disk.identity = none ∨ disk.isSymlink = true ∨ before'.rootIdentity ≠ disk.identity ∨
        ∃ e ∈ summary.entries, ¬after'.Found svc disk e.path ∨ ".git" ∈ components e.path ∨
          ∃ front, front ≠ [] ∧ front <+: components e.path ∧ disk.node front = some .symlink) →
      ∃ e, turn.attach.checkUndo svc objects (fun _ => false) disk false = (disk, .error e)) := by
  -- what a passed validation says in terms of the two snapshots
  have hpassed : turn.attach.validateUndo svc objects disk = .ok () →
      ∃ loaded, turn.attach.materialized svc objects = .ok loaded ∧
        loaded.changes.summary.entries = summary.entries ∧ summary.truncated = false ∧
        summary.unavailable = none ∧
        SameData (before'.retain (summary.entries.map (·.path))) loaded.before ∧
        SameData (after'.retain (summary.entries.map (·.path))) loaded.after ∧
        loaded.checkRoot disk = .ok () ∧ ∀ e ∈ summary.entries,
          ((loaded.before.contents e.path).isSome →
            (loaded.before.modes.lookup e.path).isSome) ∧
          loaded.verifyCurrent svc disk e.path = .ok () := by
    intro h
    obtain ⟨loaded, hloaded, -, hwhole, havailable, hroot, hall⟩ :=
      FrozenTurn.validateUndo_passed h
    obtain ⟨-, hentries, htruncated, hunavailable, hsb, hsa⟩ :=
      freeze_loads hb ha hsummary hfreeze hkb hka hks hloaded
    exact ⟨loaded, hloaded, hentries, htruncated ▸ hwhole, hunavailable ▸ havailable, hsb, hsa,
      hroot, hentries ▸ hall⟩
  refine ⟨fun h hwritable hreadable => ?_, fun hchanged => ?_⟩
  · obtain ⟨loaded, hloaded, hentries, hwhole, havailable, hsb, hsa, -, hall⟩ := hpassed h
    have hlist := Snapshot.compareLoaded_paths hsummary hwhole havailable
    refine ⟨hlist, ?_⟩
    have hrestorable : ∀ path ∈ summary.entries.map (·.path),
        (loaded.mark .unknown).Restorable svc objects disk path := by
      intro path hpath
      obtain ⟨e, he, rfl⟩ := mem_of_path hpath
      obtain ⟨hmode, hcurrent⟩ := hall e he
      have hcontents := hsb.contents e.path
      have hcontentsAfter := hsa.contents e.path
      rw [retain_contents, if_pos hpath] at hcontents hcontentsAfter
      refine FrozenTurn.Restorable.mark ⟨hcurrent, hwritable e he, fun c hc => ?_, fun hnone => ?_⟩ _
      · rw [hc] at hcontents hmode
        obtain ⟨c', hc', rfl⟩ := Option.map_eq_some_iff.1 hcontents.symm
        exact ⟨Option.isSome_iff_exists.1 (hmode rfl), hreadable e he c' hc'⟩
      · -- the snapshots differ at a listed path, so one that was absent is there now
        rw [hlist] at hpath
        have hdiffer := (List.mem_filter.1 hpath).2
        rw [hnone] at hcontents
        rw [hcontentsAfter]
        rcases hbe : before'.contents e.path with _ | c
        · rcases hae : after'.contents e.path with _ | d
          · simp [Snapshot.differ, hbe, hae] at hdiffer
          · rfl
        · simp [hbe] at hcontents
    have hnodup : ((summary.entries.map (·.path)).map components).Nodup := by
      refine components_nodup (fun p hp => ?_) (hlist ▸ (List.nodup_dedup _).filter _)
      obtain ⟨e, he, rfl⟩ := mem_of_path hp
      exact hspelled e he
    obtain ⟨disk', hloop, hback, hframe⟩ :=
      FrozenTurn.restoreLoop_all (summary.entries.map (·.path)) disk hrestorable hnodup
    refine ⟨disk', ?_, fun e he => ?_, fun place hplace => hframe place fun path hpath => ?_⟩
    · have hmarked := FrozenTurn.materialized_mark hloaded .unknown
      rw [List.map_map] at hloop
      have hmarkedEntries : (loaded.mark .unknown).changes.summary.entries = summary.entries :=
        hentries
      simp only [FrozenTurn.checkUndo, FrozenTurn.restore, hmarked, hmarkedEntries, if_true]
      rw [show (summary.entries.map fun e => (e.path, false)) =
        summary.entries.map ((fun path => (path, false)) ∘ fun e => e.path) from rfl, hloop]
      rfl
    · exact (hback e.path (List.mem_map_of_mem he)).givenBack (List.mem_map_of_mem he) hsb
    · obtain ⟨e, he, rfl⟩ := mem_of_path hpath
      exact hplace e he
  · rw [FrozenTurn.checkUndo, if_neg (by simp)]
    rcases hv : turn.attach.validateUndo svc objects disk with e | u
    · exact ⟨e, rfl⟩
    · exfalso
      obtain ⟨loaded, -, -, -, -, hsb, hsa, hroot, hall⟩ := hpassed hv
      simp only [FrozenTurn.checkRoot, bind_eq_ok, orError_eq_ok, bailIf_eq_ok, not_or,
        Bool.not_eq_true, not_not] at hroot
      obtain ⟨identity, hid, hlink, hsame⟩ := hroot
      rw [hsb.root, show (before'.retain (summary.entries.map (·.path))).rootIdentity =
        before'.rootIdentity from rfl] at hsame
      rcases hchanged with hnone | hsym | hroot | ⟨e, he, hdiffers⟩
      · simp [hnone] at hid
      · simp [hsym] at hlink
      · exact hroot (hsame.trans hid.symm)
      · have hverified := FrozenTurn.verifyCurrent_verified (hall e he).2
        rcases hdiffers with hfound | hgit | ⟨front, hne, hfront, hnode⟩
        · exact hfound (hverified.current.found (List.mem_map_of_mem he) hsa)
        · exact hverified.noGit hgit
        · exact hverified.noLink front hne hfront hnode

/-- The project after the turn, with a directory whose names can be changed or not. -/
def editedDisk (writable : Bool) : Disk where
  identity := some (1, 2)
  node
    | [] => some (.dir true)
    | ["d"] => some (.dir writable)
    | ["d", "f"] => some (.file [98] 0o100644)
    | _ => none

theorem undo_restores_editTurn :
    (editTurn.attach.validateUndo editServices editObjects (editedDisk true) = .ok () →
      (∀ e ∈ editSummary.entries,
        (editedDisk true).writable (components e.path).dropLast = true) →
      (∀ e ∈ editSummary.entries, ∀ c, (oneFile 1 shaOfA).contents e.path = some c →
        ∃ bytes, c.attach.load editServices editObjects = .ok bytes) →
      editSummary.entries.map (·.path) = ((oneFile 1 shaOfA).paths (oneFile 2 shaOfB)).filter
        ((oneFile 1 shaOfA).differ editServices (oneFile 2 shaOfB)) ∧
      ∃ disk', (editTurn.attach.mark .unknown).checkUndo editServices editObjects (fun _ => false)
          (editedDisk true) true = (disk', .ok (editTurn.attach.mark .unknown)) ∧
        (∀ e ∈ editSummary.entries, (oneFile 1 shaOfA).GivenBack editServices disk' e.path) ∧
        ∀ place, (∀ e ∈ editSummary.entries, place ≠ components e.path) →
          disk'.node place = (editedDisk true).node place) ∧
    (((editedDisk true).identity = none ∨ (editedDisk true).isSymlink = true ∨
        (oneFile 1 shaOfA).rootIdentity ≠ (editedDisk true).identity ∨
        ∃ e ∈ editSummary.entries,
          ¬(oneFile 2 shaOfB).Found editServices (editedDisk true) e.path ∨
          ".git" ∈ components e.path ∨ ∃ front, front ≠ [] ∧ front <+: components e.path ∧
            (editedDisk true).node front = some .symlink) →
      ∃ e, editTurn.attach.checkUndo editServices editObjects (fun _ => false) (editedDisk true)
        false = (editedDisk true, .error e)) :=
  undo_restores editServices contentObjects editObjects editObjects "r" (oneFile 1 shaOfA)
    (oneFile 2 shaOfB) (oneFile 1 shaOfA) (oneFile 2 shaOfB) false false editSummary editTurn
    (editedDisk true) rfl rfl (by decide +kernel) editTurn_frozen (by decide +kernel)
    (kept_of_lookup (by decide +kernel) (by decide +kernel))
    (kept_of_lookup (by decide +kernel) (by decide +kernel))
    (kept_of_lookup (by decide +kernel) (by decide +kernel))

/-- The validation passes on a directory the server may not change, and the restore fails: nothing
was put back. -/
theorem lockedDirectory_not_restored :
    FrozenTurn.freezeInner editServices contentObjects "r" (oneFile 1 shaOfA) (oneFile 2 shaOfB)
        false false = .ok (editTurn, editObjects) ∧
      editTurn.attach.validateUndo editServices editObjects (editedDisk false) = .ok () ∧
      ((editTurn.attach.mark .unknown).checkUndo editServices editObjects (fun _ => false)
        (editedDisk false) true).2 = .error permissionDenied ∧
      ((editTurn.attach.mark .unknown).checkUndo editServices editObjects (fun _ => false)
        (editedDisk false) true).1.node ["d", "f"] = some (.file [98] 0o100644) := by
  exact ⟨editTurn_frozen, by decide +kernel, by decide +kernel, by decide +kernel⟩

end LatteWork
