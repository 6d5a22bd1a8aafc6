import LatteWork.Wire.Protocol

/-!
# Snapshot records

What the server keeps of a worktree: a `Snapshot` before and after a turn, and the `FrozenTurn`
made of the two. Large contents live as objects of a directory beside the database; a record
holds their keys.
-/

namespace LatteWork

/-- A reference to an immutable object file: the SHA-256 of its bytes and their number. `attached`
is the source's `root`, the storage directory a record read from the database is given. -/
structure Object where
  key : String
  size : ℕ
  attached : Bool := false
  deriving DecidableEq, Repr, Inhabited

def Object.toJson (o : Object) : Json :=
  .obj [("key", .str o.key), ("size", .nat o.size)]

/-- The bytes of one file: inline in old records, an object in new ones. -/
inductive Contents where
  | legacy (bytes : List UInt8)
  | object (o : Object)
  deriving DecidableEq, Repr, Inhabited

def Contents.toJson : Contents → Json
  | .legacy bytes => .arr (bytes.map fun b => .nat b.toNat)
  | .object o => o.toJson

/-- A captured worktree. `files` maps a path to its contents, or to `none` for a path that was
listed and could not be read; `modes` has the `st_mode` of the files that were. -/
structure Snapshot where
  atMs : ℕ
  rootIdentity : Option (ℕ × ℕ) := none
  files : List (String × Option Contents) := []
  manifest : Option Object := none
  storage : Bool := false
  modes : List (String × ℕ) := []
  truncated : Bool := false
  unavailable : Option String := none
  deriving DecidableEq, Repr, Inhabited

namespace Snapshot

def toJson (s : Snapshot) : Json :=
  .obj ([("at", .f64 s.atMs),
    ("root_identity", .opt (fun (dev, ino) => .arr [.nat dev, .nat ino]) s.rootIdentity),
    ("files", .obj (s.files.map fun (path, c) => (path, .opt Contents.toJson c)))] ++
    Json.optField "manifest" Object.toJson s.manifest ++
    [("modes", .obj (s.modes.map fun (path, mode) => (path, .nat mode))),
      ("truncated", .bool s.truncated), ("unavailable", .opt .str s.unavailable)])

/-- `Snapshot::unavailable`: the placeholder of a baseline that cannot be used. -/
def ofUnavailable (atMs : ℕ) (message : String) : Snapshot where
  atMs := atMs
  unavailable := some message

end Snapshot

/-- The complete change list of a turn, when the wire page does not hold all of it. -/
inductive SummaryData where
  | object (o : Object)
  | inline (summary : ChangeSummary)
  deriving DecidableEq, Repr, Inhabited

def SummaryData.toJson : SummaryData → Json
  | .object o => o.toJson
  | .inline summary => summary.toJson

/-- A finished turn: its change list and the two snapshots, restricted to the changed paths. -/
structure FrozenTurn where
  fullSummary : Option SummaryData := none
  changes : TurnChanges
  before : Snapshot
  after : Snapshot
  deriving DecidableEq, Repr, Inhabited

def FrozenTurn.toJson (t : FrozenTurn) : Json :=
  .obj (Json.optField "full_summary" SummaryData.toJson t.fullSummary ++
    [("changes", t.changes.toJson), ("before", t.before.toJson), ("after", t.after.toJson)])

/-- `RECORD_LIMIT`: the largest snapshot record the database takes. -/
def recordLimit : ℕ := 256 * 1024

/-- `small_json`: the text of a record, or an error for one that is too large. -/
def smallJson (v : Json) : Except String String :=
  if v.size ≤ recordLimit then .ok v.render else .error "快照元数据过大"

end LatteWork
