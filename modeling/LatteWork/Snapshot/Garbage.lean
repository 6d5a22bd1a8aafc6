import LatteWork.Snapshot.Disk
import LatteWork.Snapshot.Frozen
import LatteWork.Store.Tables

/-!
# Collecting snapshot objects

When the database is opened, the object files that none of its records refers to are removed.
The records are those of three columns: the baseline of a session, the baseline of a turn under
way, and the frozen record of a finished turn.
-/

namespace LatteWork

open Fallible

/-- The name of a directory entry: text, or bytes that are not UTF-8. -/
inductive FileName where
  | text (name : String)
  | raw (bytes : List UInt8)
  deriving DecidableEq, Repr, Inhabited

/-- What `read_dir` finds: a name and what it names, without following symbolic links. -/
structure DirEntry where
  name : FileName
  node : Node
  deriving DecidableEq, Repr, Inhabited

namespace DirEntry

/-- The key of an object file: a regular file whose name is 64 hexadecimal digits. -/
def objectKey? (e : DirEntry) : Option String :=
  match e.name, e.node with
  | .text key, .file _ _ =>
    if key.utf8ByteSize = 64 ∧ key.toUTF8.data.toList.all isAsciiHexdigit then some key else none
  | _, _ => none

/-- An object file that is not to be kept. -/
def garbage (keys : List String) (e : DirEntry) : Bool :=
  match e.objectKey? with
  | some key => key ∉ keys
  | none => false

/-- The bytes of a regular file, under its name. -/
def stored? (e : DirEntry) : Option (String × List UInt8) :=
  match e.name, e.node with
  | .text name, .file bytes _ => some (name, bytes)
  | _, _ => none

end DirEntry

/-- The storage directory. A directory has a name once. -/
structure SnapshotDir where
  entries : List DirEntry
  nodup : (entries.map (·.name)).Nodup

namespace SnapshotDir

/-- What the readers of objects see. -/
def objects (d : SnapshotDir) : Objects := d.entries.filterMap DirEntry.stored?

/-- `remove_file`. -/
def remove (d : SnapshotDir) (name : FileName) : SnapshotDir where
  entries := d.entries.filter (·.name ≠ name)
  nodup := d.nodup.sublist ((d.entries.filter_sublist).map _)

/-- The loop over the entries, `refuses` being the files that the system does not let it remove. -/
def sweep (refuses : FileName → Bool) (keys : List String) :
    List DirEntry → SnapshotDir → Except String Unit × SnapshotDir
  | [], d => (.ok (), d)
  | e :: rest, d =>
    if e.garbage keys then
      if refuses e.name then (.error permissionDenied, d)
      else sweep refuses keys rest (d.remove e.name)
    else sweep refuses keys rest d

end SnapshotDir

/-- `object`. -/
def Contents.object? : Contents → Option Object
  | legacy _ => none
  | object o => some o

/-- `referenced_objects`: add the keys that a snapshot refers to. -/
def Snapshot.referencedObjects (svc : Services) (objects : Objects) (s : Snapshot)
    (keys : List String) : Except String (List String) := do
  let keys := s.manifest.elim keys fun manifest => keys.insert manifest.key
  let loaded ← s.materialized svc objects
  let contents := loaded.files.filterMap (·.2)
  .ok ((contents.filterMap Contents.object?).foldl (fun keys o => keys.insert o.key) keys)

/-- `referenced_objects`: add the keys that a frozen turn refers to. -/
def FrozenTurn.referencedObjects (svc : Services) (objects : Objects) (t : FrozenTurn)
    (keys : List String) : Except String (List String) := do
  let keys ← t.before.referencedObjects svc objects keys
  let keys ← t.after.referencedObjects svc objects keys
  .ok (match t.fullSummary with
    | some (.object o) => keys.insert o.key
    | _ => keys)

/-- The rows that hold snapshots, by column. A row whose text does not decode is `none`. -/
structure SnapshotRows where
  taskBaselines : List (Option Snapshot)
  turnBaselines : List (Option Snapshot)
  frozenTurns : List (Option FrozenTurn)

/-- The rows of a database. -/
def Store.snapshotRows (s : Store) : SnapshotRows where
  taskBaselines := s.taskBaselines.map fun row => some row.data
  turnBaselines := (s.turnChanges.filterMap (·.baseline)).map some
  frozenTurns := (s.turnChanges.filterMap (·.data)).map some

namespace SnapshotRows

/-- The keys that the rows refer to. -/
def referenced (svc : Services) (objects : Objects) (rows : SnapshotRows) :
    Except String (List String) := do
  let ofSnapshot (keys : List String) (row : Option Snapshot) : Except String (List String) := do
    let snapshot ← orError "expected value" row
    snapshot.attach.referencedObjects svc objects keys
  let keys ← rows.taskBaselines.foldlM ofSnapshot []
  let keys ← rows.turnBaselines.foldlM ofSnapshot keys
  rows.frozenTurns.foldlM (fun keys row => do
    let turn ← orError "expected value" row
    turn.attach.referencedObjects svc objects keys) keys

end SnapshotRows

/-- `collect_snapshot_garbage`. -/
def collectSnapshotGarbage (svc : Services) (refuses : FileName → Bool) (rows : SnapshotRows)
    (d : SnapshotDir) : Except String Unit × SnapshotDir :=
  match rows.referenced svc d.objects with
  | .error e => (.error e, d)
  | .ok keys => d.sweep refuses keys d.entries

end LatteWork
