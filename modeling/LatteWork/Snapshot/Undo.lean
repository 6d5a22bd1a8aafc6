import LatteWork.Snapshot.Disk
import LatteWork.Snapshot.Frozen

/-!
# Undoing a turn

A turn is undone by putting the listed paths back as they were before it. All of them are checked
against the snapshot taken after the turn first, and each once more before it is touched.
-/

namespace LatteWork

open Fallible

namespace FrozenTurn

/-- The turn with another undo status. -/
def mark (status : TurnUndoStatus) (t : FrozenTurn) : FrozenTurn :=
  { t with changes := { t.changes with undo := status } }

/-- The directory is the one the snapshot before the turn was taken of. -/
def checkRoot (t : FrozenTurn) (disk : Disk) : Except String Unit := do
  let identity ← orError notFound disk.identity
  bailIf (disk.isSymlink ∨ t.before.rootIdentity ≠ some identity) "项目目录已改变，无法安全撤销"

/-- The walk of `verify_current` along a path: directories down to the last component, which may
be missing. -/
def walk (disk : Disk) (path : String) : List String → List String → Except String Unit
  | _, [] => .ok ()
  | above, c :: rest =>
    if c = ".git" then .error "不能撤销 Git 内部文件"
    else match disk.node (above ++ [c]) with
      | some .symlink => .error s!"文件路径已变为符号链接：{path}"
      | some node =>
        if rest ≠ [] ∧ ¬node.isDir then .error s!"文件所在目录已改变：{path}"
        else walk disk path (above ++ [c]) rest
      | none => if rest = [] then .ok () else .error notFound

/-- `verify_current`: a path is as the snapshot after the turn has it. -/
def verifyCurrent (svc : Services) (t : FrozenTurn) (disk : Disk) (path : String) :
    Except String Unit := do
  t.checkRoot disk
  validatePath path
  walk disk path [] (components path)
  match disk.node (components path), t.after.contents path with
  | none, none => .ok ()
  | some (.file bytes mode), some contents =>
    bailIf (¬contents.matches svc bytes ∨ t.after.modes.lookup path ≠ some mode)
      s!"文件在本轮结束后已改变，未撤销：{path}"
  | _, _ => .error s!"文件在本轮结束后已改变，未撤销：{path}"

/-- A listed path can be checked: what is put back has its mode, and the path is unchanged. -/
def validatePathOf (svc : Services) (t : FrozenTurn) (disk : Disk) (path : String) :
    Except String Unit := do
  bailIf ((t.before.contents path).isSome ∧ (t.before.modes.lookup path).isNone)
    "缺少原文件权限，无法撤销"
  t.verifyCurrent svc disk path

/-- `validate_undo_loaded`. -/
def validateUndoLoaded (svc : Services) (t : FrozenTurn) (disk : Disk) : Except String Unit := do
  let summary := t.changes.summary
  bailIf (t.changes.undo ≠ .ready ∨ summary.truncated ∨ summary.unavailable.isSome ∨
    t.changes.backgroundPending ∨ summary.entries = []) "此轮变更无法安全撤销，请查看工作区并手动核对"
  t.checkRoot disk
  bailIf (t.after.rootIdentity ≠ t.before.rootIdentity) "项目目录已改变，无法安全撤销"
  summary.entries.forM fun entry => t.validatePathOf svc disk entry.path

/-- `validate_undo`. -/
def validateUndo (svc : Services) (objects : Objects) (t : FrozenTurn) (disk : Disk) :
    Except String Unit := do
  let t ← t.materialized svc objects
  t.validateUndoLoaded svc disk

/-- `restore_loaded` at one path. A file is written beside its target and moved over it: moving it
and removing a file are the only steps that change a path, and both need the directory. `fails` is
an I/O error before them. -/
def restorePath (svc : Services) (objects : Objects) (t : FrozenTurn) (fails : Bool) (disk : Disk)
    (path : String) : Except String Disk := do
  t.verifyCurrent svc disk path
  let target := components path
  match t.before.contents path with
  | some contents =>
    let mode ← orError "缺少原文件权限，无法撤销" (t.before.modes.lookup path)
    bailIf (¬disk.writable target.dropLast) permissionDenied
    let bytes ← contents.load svc objects
    bailIf fails ioError
    t.verifyCurrent svc disk path
    .ok (disk.set target (some (.file bytes (regularMode (mode % 0o1000)))))
  | none =>
    bailIf ((disk.node target).isNone) notFound
    bailIf (¬disk.writable target.dropLast) permissionDenied
    bailIf fails ioError
    .ok (disk.set target none)

/-- The loop of `restore_loaded`, with the directory it leaves. -/
def restoreLoop (svc : Services) (objects : Objects) (t : FrozenTurn) :
    List (String × Bool) → Disk → Disk × Except String Unit
  | [], disk => (disk, .ok ())
  | (path, fails) :: rest, disk =>
    match t.restorePath svc objects fails disk path with
    | .error e => (disk, .error e)
    | .ok disk => restoreLoop svc objects t rest disk

/-- `restore`, when the I/O errors are those of `fails`. -/
def restore (svc : Services) (objects : Objects) (fails : String → Bool) (t : FrozenTurn)
    (disk : Disk) : Disk × Except String Unit :=
  match t.materialized svc objects with
  | .error e => (disk, .error e)
  | .ok t =>
    t.restoreLoop svc objects (t.changes.summary.entries.map fun e => (e.path, fails e.path)) disk

/-- `check_undo`. -/
def checkUndo (svc : Services) (objects : Objects) (fails : String → Bool) (t : FrozenTurn)
    (disk : Disk) (restore : Bool) : Disk × Except String FrozenTurn :=
  if restore then
    let (disk, result) := t.restore svc objects fails disk
    (disk, result.map fun _ => t)
  else (disk, (t.validateUndo svc objects disk).map fun _ => t)

end FrozenTurn

end LatteWork
