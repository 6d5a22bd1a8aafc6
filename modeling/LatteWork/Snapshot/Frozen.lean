import LatteWork.Snapshot.Disk
import LatteWork.Snapshot.Objects
import Mathlib.Data.List.Dedup
import Mathlib.Data.List.Sort

/-!
# Freezing a turn

The change list of a turn is the comparison of two captured worktrees. What is kept is the list
and the two snapshots restricted to its paths, moved to object files.
-/

namespace LatteWork

open Fallible

namespace Snapshot

/-- `empty_summary`. -/
def emptySummary (s : Snapshot) : ChangeSummary where
  entries := []
  truncated := s.truncated
  baselineAt := some s.atMs
  unavailable := s.unavailable

/-- All paths of two snapshots, in order. -/
def paths (before after : Snapshot) : List String :=
  ((before.files.map (·.1) ++ after.files.map (·.1)).insertionSort (· ≤ ·)).dedup

/-- The two snapshots record different contents at a path. -/
def differ (svc : Services) (before after : Snapshot) (path : String) : Bool :=
  match before.contents path, after.contents path with
  | none, none => false
  | some old, some new => !old.same svc new
  | _, _ => true

/-- The loop of `compare_loaded` at one path. A path a bounded snapshot does not have is unknown,
not deleted. -/
def compareStep (svc : Services) (objects : Objects) (before after : Snapshot)
    (result : ChangeSummary) (path : String) : Except String ChangeSummary :=
  if ¬before.differ svc after path then .ok result
  else
    let old := before.contents path
    let new := after.contents path
    let known (s : Snapshot) : Bool := s.files.any (·.1 = path)
    if (old.isSome ∧ ¬known after ∧ after.truncated) ∨
        (new.isSome ∧ ¬known before ∧ before.truncated) then
      .ok { result with truncated := true }
    else do
      let _ ← old.toList.mapM (Contents.load svc objects)
      let _ ← new.toList.mapM (Contents.load svc objects)
      .ok { result with
        entries := result.entries ++
          [{ path, status := if old.isNone then "A" else if new.isNone then "D" else "M"
             added := none, removed := none }] }

/-- What the comparison does with one record of `git diff --numstat`. -/
def countLines (result : ChangeSummary) : ℕ × Option ℕ × Option ℕ → ChangeSummary
  | (index, added, removed) =>
    match result.entries[index]? with
    | none => { result with truncated := true }
    | some entry =>
      let result := { result with entries := result.entries.set index { entry with added, removed } }
      match added, removed with
      | some a, some r => { result with added := result.added + a, removed := result.removed + r }
      | _, _ => { result with binaryFiles := result.binaryFiles + 1 }

/-- `compare_loaded`. -/
def compareLoaded (svc : Services) (objects : Objects) (before after : Snapshot) :
    Except String ChangeSummary := do
  bailIf (before.rootIdentity.isSome ∧ after.rootIdentity.isSome ∧
    before.rootIdentity ≠ after.rootIdentity) "项目目录已改变，无法确认本轮变更"
  let result := { before.emptySummary with truncated := before.truncated || after.truncated }
  if before.unavailable.isSome ∨ after.unavailable.isSome then
    .ok { result with unavailable := before.unavailable.or after.unavailable }
  else do
    let result ← (before.paths after).foldlM (before.compareStep svc objects after) result
    if result.entries = [] then .ok result
    else do
      let contents (s : Snapshot) (path : String) : Option (List UInt8) :=
        (s.contents path).bind fun c => (c.load svc objects).toOption
      let (stats, truncated) ← svc.numstat
        (result.entries.map fun e => (contents before e.path, contents after e.path))
      .ok (stats.foldl countLines { result with truncated := result.truncated || truncated })

/-- `patch_loaded`. `diff` is `git diff --no-index` on two contents, with the path in its output. -/
def patchLoaded (svc : Services) (objects : Objects)
    (diff : String → Option (List UInt8) → Option (List UInt8) → Except String (String × Bool))
    (before after : Snapshot) (path : String) : Except String (String × Bool) := do
  validatePath path
  match before.unavailable.or after.unavailable with
  | some error => .error error
  | none =>
    let old := before.contents path
    let new := after.contents path
    let known (s : Snapshot) : Bool := s.files.any (·.1 = path)
    bailIf (¬before.differ svc after path ∨ (old.isSome ∧ ¬known after ∧ after.truncated) ∨
      (new.isSome ∧ ¬known before ∧ before.truncated)) "文件不属于本轮已记录的变更"
    let old ← old.mapM (Contents.load svc objects)
    let new ← new.mapM (Contents.load svc objects)
    diff path old new

/-- Keep the files of the listed paths, and their modes. -/
def retain (s : Snapshot) (listed : List String) : Snapshot :=
  let files := s.files.filter fun (path, _) => path ∈ listed
  { s with
    files
    modes := s.modes.filter fun (path, _) => files.any (·.1 = path) }

end Snapshot

/-- The loop of `summary_page`: entries as long as their text is within the page. -/
def pageEntries : ℕ → List TaskChange → Except String (List TaskChange)
  | _, [] => .ok []
  | bytes, entry :: rest => do
    let size := entry.toJson.size
    bailIf (64 * 1024 < size) "文件路径超出展示范围"
    if 64 * 1024 < bytes + size then .ok []
    else do
      let more ← pageEntries (bytes + size) rest
      .ok (entry :: more)

/-- `summary_page`. -/
def summaryPage (summary : ChangeSummary) (offset : ℕ) : Except String ChangeSummary := do
  bailIf (summary.entries.length < offset) "文件列表游标无效"
  let entries ← pageEntries 0 ((summary.entries.drop offset).take 64)
  let page := { summary with entries, totalFiles := none, nextOffset := none, offset := none }
  let count := summary.entries.length
  let stop := offset + entries.length
  if 0 < offset ∨ stop < count then do
    bailIf (2 ^ 32 ≤ count) "out of range integral type conversion attempted"
    .ok { page with
      totalFiles := some count
      offset := some offset
      nextOffset := if stop < count then some stop else none }
  else .ok page

namespace SummaryData

def attach : SummaryData → SummaryData
  | object o => object o.attach
  | inline summary => inline summary

/-- `read`. -/
def read (svc : Services) (objects : Objects) : SummaryData → Except String ChangeSummary
  | object o => o.read svc objects svc.parseSummary
  | inline summary => .ok summary

/-- The complete list of a turn: on the page, or beside it when there is a next page. -/
def save (svc : Services) (objects : Objects) (storage : Bool) (summary page : ChangeSummary) :
    Except String (Option SummaryData × Objects) :=
  if page.nextOffset.isNone then .ok (none, objects)
  else if storage then do
    let (o, objects) ← objects.save svc summary.toJson.bytes
    .ok (some (object o), objects)
  else .ok (some (inline summary), objects)

end SummaryData

namespace FrozenTurn

/-- `freeze_inner`. -/
def freezeInner (svc : Services) (objects : Objects) (requestId : String)
    (before after : Snapshot) (interrupted backgroundPending : Bool) :
    Except String (FrozenTurn × Objects) := do
  let before ← before.materialized svc objects
  let after ← after.materialized svc objects
  let summary ← before.compareLoaded svc objects after
  let listed := summary.entries.map (·.path)
  let before := before.retain listed
  let after := after.retain listed
  let page ← summaryPage summary 0
  let (fullSummary, objects) ← SummaryData.save svc objects before.storage summary page
  let (before, objects) ← before.persist svc objects
  let (after, objects) ← after.persist svc objects
  .ok ({ fullSummary
         changes := { requestId, summary := page, interrupted, backgroundPending, undo := .ready }
         before
         after }, objects)

/-- `attach`. -/
def attach (t : FrozenTurn) : FrozenTurn :=
  { t with
    fullSummary := t.fullSummary.map SummaryData.attach
    before := t.before.attach
    after := t.after.attach }

/-- The complete list of a turn. -/
def full (svc : Services) (objects : Objects) (t : FrozenTurn) : Except String ChangeSummary :=
  match t.fullSummary with
  | none => .ok t.changes.summary
  | some full => full.read svc objects

/-- `page_for`: the page at an offset, or one that has a path. -/
def pageFor (svc : Services) (objects : Objects) (t : FrozenTurn) (offset : Option ℕ)
    (path : Option String) : Except String ChangeSummary := do
  let full ← t.full svc objects
  let offset ← match offset, path with
    | some offset, _ => .ok offset
    | none, some path => do
      let index := (full.entries.findIdx? (·.path = path)).getD 0
      let start := index / 64 * 64
      bailIf (2 ^ 32 ≤ start) "out of range integral type conversion attempted"
      let first ← summaryPage full start
      let offset := if first.entries.any (·.path = path) then start else index
      bailIf (2 ^ 32 ≤ offset) "out of range integral type conversion attempted"
      .ok offset
    | none, none => .ok 0
  summaryPage full offset

/-- `materialized`: the turn with its complete list and both snapshots. -/
def materialized (svc : Services) (objects : Objects) (t : FrozenTurn) :
    Except String FrozenTurn := do
  let summary ← t.full svc objects
  let before ← t.before.materialized svc objects
  let after ← t.after.materialized svc objects
  .ok { t with changes := { t.changes with summary }, before, after }

/-- `patch_inner`. -/
def patch (svc : Services) (objects : Objects)
    (diff : String → Option (List UInt8) → Option (List UInt8) → Except String (String × Bool))
    (t : FrozenTurn) (path : String) : Except String (String × Bool) := do
  validatePath path
  let full ← t.full svc objects
  bailIf (¬full.entries.any (·.path = path)) "文件不属于本轮已记录的变更"
  let before ← t.before.materialized svc objects
  let after ← t.after.materialized svc objects
  { before with truncated := false }.patchLoaded svc objects diff
    { after with truncated := false } path

end FrozenTurn

end LatteWork
