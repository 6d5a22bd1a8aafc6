import LatteWork.Lib.Table
import LatteWork.Snapshot.Frozen

/-!
# Migrating legacy snapshots

Rows of older servers have whole worktrees inline. When the database is opened, each oversized one is
copied to an archive file and replaced by its record in the new form, or by one that says that the
state is unknown. The loop asks for the next row again after each one.
-/

namespace LatteWork

open Fallible Table

/-- `Contents::Legacy` to `Contents::Object`, by `save_bytes`. -/
def Contents.migrate (svc : Services) (objects : Objects) : Contents → Except String (Contents × Objects)
  | .legacy bytes => do
    let (o, objects) ← objects.save svc bytes
    .ok (.object o, objects)
  | .object o => .ok (.object o, objects)

namespace Snapshot

/-- The loop of `migrate_legacy` over the files. -/
def migrateFiles (svc : Services) : Objects → List (String × Option Contents) →
    Except String (List (String × Option Contents) × Objects)
  | objects, [] => .ok ([], objects)
  | objects, (path, none) :: rest => do
    let (files, objects) ← migrateFiles svc objects rest
    .ok ((path, none) :: files, objects)
  | objects, (path, some c) :: rest => do
    let (c, objects) ← c.migrate svc objects
    let (files, objects) ← migrateFiles svc objects rest
    .ok ((path, some c) :: files, objects)

/-- `migrate_legacy`. Files that it saves before it fails are left behind, and nothing names them. -/
def migrateLegacy (svc : Services) (objects : Objects) (s : Snapshot) :
    Except String (Snapshot × Objects) := do
  let s := s.attach
  if s.manifest.isSome then do
    let _ ← s.materialized svc objects
    .ok (s, objects)
  else do
    let (files, objects) ← migrateFiles svc objects s.files
    { s with files }.persist svc objects

end Snapshot

/-- `FrozenTurn::migrate_legacy`. -/
def FrozenTurn.migrateLegacy (svc : Services) (objects : Objects) (t : FrozenTurn) :
    Except String (FrozenTurn × Objects) := do
  let t := t.attach
  let (before, objects) ← t.before.migrateLegacy svc objects
  let (after, objects) ← t.after.migrateLegacy svc objects
  let full ← t.full svc objects
  let page ← summaryPage full 0
  let t := { t with before, after, changes := { t.changes with summary := page } }
  if page.nextOffset.isSome then do
    let (o, objects) ← objects.save svc full.toJson.bytes
    .ok ({ t with fullSummary := some (.object o) }, objects)
  else .ok ({ t with fullSummary := none }, objects)

/-- What the migration calls besides: the parser of a stored turn, and the name of a new archive
file. -/
structure MigrationServices extends Services where
  parseTurn : List UInt8 → Option FrozenTurn
  freshName : List (String × List UInt8) → String

/-- The columns that hold snapshots: `task_baselines.data`, `turn_changes.baseline` and
`turn_changes.data`. -/
inductive SnapshotColumn where
  | baseline | turnBaseline | turnData
  deriving DecidableEq, Repr, Inhabited

/-- The text of one of these columns in one row. -/
structure SnapshotCell where
  column : SnapshotColumn
  rowid : ℕ
  sessionId : String
  requestId : Option String
  text : List UInt8
  deriving DecidableEq, Repr, Inhabited

namespace SnapshotCell

def key (c : SnapshotCell) : SnapshotColumn × ℕ := (c.column, c.rowid)

/-- `octet_length` is above `RECORD_LIMIT`. -/
def oversized (c : SnapshotCell) : Bool := recordLimit < c.text.length

end SnapshotCell

/-- A row of `snapshot_legacy_archive`. -/
structure Archived where
  column : SnapshotColumn
  rowid : ℕ
  path : String
  deriving DecidableEq, Repr, Inhabited

/-- What the migration works on: the columns, the archive table, the files of the archive and of the
object directory, and the notices it logs. -/
structure LegacyStore where
  cells : List SnapshotCell
  archive : List Archived := []
  legacy : List (String × List UInt8) := []
  objects : Objects := []
  notices : List (String × String) := []
  deriving DecidableEq, Repr, Inhabited

def legacyUnavailable : String := "旧版大型快照已完整归档，自动撤销状态未知；请核对工作区。"

/-- `LEGACY_DECODE_LIMIT`. -/
def legacyDecodeLimit : ℕ := 96 * 1024 * 1024

/-- The record that replaces one that cannot be converted, with its fields in order of their
names. -/
def SnapshotCell.fallback (c : SnapshotCell) (now : ℕ) : Json :=
  match c.column with
  | .turnData =>
    let snapshot : Json :=
      .obj [("at", .f64 now), ("files", .obj []), ("modes", .obj []), ("root_identity", .null),
        ("truncated", .bool false), ("unavailable", .str legacyUnavailable)]
    .obj [("after", snapshot), ("before", snapshot),
      ("changes", .obj [("background_pending", .bool false), ("interrupted", .bool true),
        ("request_id", .opt .str c.requestId),
        ("summary", .obj [("added", .nat 0), ("baseline_at", .null), ("binary_files", .nat 0),
          ("entries", .arr []), ("removed", .nat 0), ("truncated", .bool false),
          ("unavailable", .str legacyUnavailable)]),
        ("undo", .str "unknown")])]
  | _ => (Snapshot.ofUnavailable now legacyUnavailable).toJson

/-- The conversion of a record: the text of its new form. -/
def SnapshotCell.convert (svc : MigrationServices) (objects : Objects) (c : SnapshotCell) :
    Except String (String × Objects) := do
  bailIf (legacyDecodeLimit < c.text.length) "legacy decode budget exceeded"
  match c.column with
  | .turnData => do
    let turn ← orError "expected value" (svc.parseTurn c.text)
    let (turn, objects) ← turn.migrateLegacy svc.toServices objects
    let text ← smallJson turn.toJson
    .ok (text, objects)
  | _ => do
    let snapshot ← orError "expected value" (svc.parseSnapshot c.text)
    let (snapshot, objects) ← snapshot.migrateLegacy svc.toServices objects
    let text ← smallJson snapshot.toJson
    .ok (text, objects)

namespace LegacyStore

variable (svc : MigrationServices) (now : ℕ)

/-- `UPDATE ... SET column WHERE rowid`. -/
def replace (st : LegacyStore) (c : SnapshotCell) (text : String) : List SnapshotCell :=
  updateWhere (·.key = c.key) (fun r => { r with text := text.toUTF8.data.toList }) st.cells

/-- The body of the loop: archive a row, convert it and replace it. -/
def migrateCell (st : LegacyStore) (c : SnapshotCell) : LegacyStore :=
  let name := svc.freshName st.legacy
  let legacy := st.legacy ++ [(name, c.text)]
  let archive := st.archive ++ [{ column := c.column, rowid := c.rowid, path := name }]
  match c.convert svc st.objects with
  | .ok (text, objects) => { st with cells := st.replace c text, archive, legacy, objects }
  | .error _ =>
    { st with
      cells := st.replace c (c.fallback now).render
      archive
      legacy
      notices := st.notices ++ [(c.sessionId, legacyUnavailable)] }

/-- The query of the loop: the oversized row with the next `rowid`. -/
def nextCell (st : LegacyStore) (column : SnapshotColumn) (last : ℕ) : Option SnapshotCell :=
  ((st.cells.filter fun c => c.column = column && c.oversized && last < c.rowid).insertionSort
    (·.rowid ≤ ·.rowid)).head?

end LegacyStore

/-- A run of `migrate` between two rows: the columns that are left, and the last row of the first
one. -/
structure Migration where
  store : LegacyStore
  columns : List SnapshotColumn
  last : ℕ

namespace Migration

variable (svc : MigrationServices) (now : ℕ)

def start (st : LegacyStore) : Migration where
  store := st
  columns := [.baseline, .turnBaseline, .turnData]
  last := 0

/-- One turn of the loop: the next row, or the next column. -/
def step (m : Migration) : Migration :=
  match m.columns with
  | [] => m
  | column :: rest =>
    match m.store.nextCell column m.last with
    | some c => { store := m.store.migrateCell svc now c, columns := m.columns, last := c.rowid }
    | none => { m with columns := rest, last := 0 }

/-- That many turns. -/
def steps : ℕ → Migration → Migration
  | 0, m => m
  | n + 1, m => steps n (m.step svc now)

end Migration

end LatteWork
