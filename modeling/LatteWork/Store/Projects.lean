import LatteWork.Runtime.Config
import LatteWork.Store.Operations

/-!
# Projects and pinned sessions

The projects of a host, of which some are hidden, and the sessions the user pinned. A project that
is removed is only hidden: adding its folder again brings it back with its sessions.
-/

namespace LatteWork

open Fallible Table

/-- What `canonicalize` makes of a path. `text` is none where it is not UTF-8. -/
structure ResolvedPath where
  isDir : Bool
  text : Option String
  deriving DecidableEq, Repr, Inhabited

/-- The last component of a canonical path. -/
def fileName (path : String) : String :=
  String.ofList ((path.toList.reverse.takeWhile (· ≠ '/')).reverse)

/-- The database with its table `hidden_projects`. -/
structure ProjectStore where
  store : Store := {}
  hiddenProjects : List String := []
  deriving Inhabited

namespace ProjectStore

/-- `projects`, in the order they were added. -/
def projects (s : ProjectStore) : List Project :=
  s.store.projects.filter (·.id ∉ s.hiddenProjects)

/-- Bring a project back, or insert a new one. `fresh` is the new `Uuid`. -/
def addCanonical (s : ProjectStore) (fresh canonical : String) (name : Option String) :
    Except String (ProjectStore × Project) :=
  match s.store.projects.find? (·.path = canonical) with
  | some existing =>
    .ok ({ s with hiddenProjects := s.hiddenProjects.filter (· ≠ existing.id) }, existing)
  | none => do
    bailIf (s.store.projects.any (·.id = fresh)) "UNIQUE constraint failed: projects.id"
    let project : Project :=
      { id := fresh, name := name.getD (fileName canonical), path := canonical }
    .ok ({ s with store := { s.store with projects := s.store.projects ++ [project] } }, project)

/-- The checks of `add_named_project`, up to the canonical path. -/
def canonicalPath (resolve : String → Option ResolvedPath) (path : String) (name : Option String) :
    Except String String := do
  bailIf (∃ v ∈ name, 100 < v.length ∨ v.toList.any Store.isControl)
    "项目名称不能超过 100 个字符或包含控制字符"
  bailIf (path.toList.head? ≠ some '/') "项目路径必须是绝对路径"
  let canonical ← orError "项目目录不存在或无法访问" (resolve path)
  bailIf (canonical.isDir = false) "请选择目录"
  orError "项目路径不是 UTF-8" canonical.text

/-- `add_named_project`. -/
def addNamedProject (resolve : String → Option ResolvedPath) (s : ProjectStore) (fresh path : String)
    (name : Option String) : Except String (ProjectStore × Project) := do
  let name := (name.map trim).filter (· ≠ "")
  let canonical ← canonicalPath resolve path name
  s.addCanonical fresh canonical name

/-- `remove_project`. -/
def removeProject (s : ProjectStore) (id : String) : Except String ProjectStore := do
  let _ ← s.store.project id
  bailIf (s.store.sessions.any fun x => x.projectId = id && x.status.active)
    "项目中还有运行中的任务，请等待完成或停止后再移除"
  .ok { s with hiddenProjects := if id ∈ s.hiddenProjects then s.hiddenProjects else s.hiddenProjects ++ [id] }

/-- The sessions that are pinned, not archived and in a visible project. -/
def pinnedRows (s : ProjectStore) : List Session :=
  s.store.sessions.filter fun x =>
    x.pinnedAt.isSome && !x.archived && !s.hiddenProjects.contains x.projectId

/-- `pinned_sessions`, the one pinned last first. -/
def pinnedSessions (s : ProjectStore) : List Session :=
  (s.pinnedRows.insertionSort fun a b => b.pinnedAt.getD 0 ≤ a.pinnedAt.getD 0).take 100

/-- `pin_session`. -/
def pinSession (s : ProjectStore) (id : String) (pinned : Bool) (now : ℕ) :
    Except String (ProjectStore × Session) := do
  let session ← s.store.session id
  bailIf (pinned ∧ session.archived) "请先取消归档再置顶"
  bailIf (pinned ∧ session.pinnedAt.isNone ∧ 100 ≤ s.pinnedSessions.length) "每台主机最多置顶 100 个会话"
  let session := { session with
    pinnedAt := if pinned then some (session.pinnedAt.getD now) else none }
  .ok ({ s with store := s.store.save session }, session)

end ProjectStore

/-- One call into the database about projects and pins, or any other of its operations. -/
inductive ProjectOp where
  | addNamedProject (fresh path : String) (name : Option String)
  | removeProject (id : String)
  | pin (id : String) (pinned : Bool)
  | store (op : StoreOp)

namespace ProjectStore

/-- An operation at a time. -/
def apply (resolve : String → Option ResolvedPath) (s : ProjectStore) (o : ProjectOp × ℕ) :
    Except String ProjectStore :=
  match o with
  | (.addNamedProject fresh path name, _) => (s.addNamedProject resolve fresh path name).map (·.1)
  | (.removeProject id, _) => s.removeProject id
  | (.pin id pinned, now) => (s.pinSession id pinned now).map (·.1)
  | (.store op, now) => (s.store.apply (op, now)).map fun store => { s with store }

/-- An attempted operation. A refused one changes nothing. -/
def step (resolve : String → Option ResolvedPath) : ProjectStore → ProjectOp × ℕ → ProjectStore :=
  Runs.attempt (apply resolve)

/-- The project that an accepted `add_named_project` brings back, if it brings one back. -/
def broughtBack (resolve : String → Option ResolvedPath) (s : ProjectStore) (path : String)
    (name : Option String) : Option Project :=
  match canonicalPath resolve path ((name.map trim).filter (· ≠ "")) with
  | .ok canonical =>
    (s.store.projects.find? (·.path = canonical)).filter fun p => s.hiddenProjects.contains p.id
  | .error _ => none

/-- The pinned sessions of a project, hidden or not. -/
def pinnedIn (s : ProjectStore) (project : String) : List Session :=
  s.store.sessions.filter fun x => x.pinnedAt.isSome && !x.archived && x.projectId == project

end ProjectStore

end LatteWork
