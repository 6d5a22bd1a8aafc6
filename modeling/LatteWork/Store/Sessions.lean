import Mathlib.Data.List.Sort
import LatteWork.Store.Tables

/-!
# Sessions and their events

Creating and archiving a session, moving its status, and appending an event to its log. An update
of a child task is merged into the child's row before it is logged.
-/

namespace LatteWork

open Fallible Table

namespace Store

/-- `create_session`. `fresh` is the new `Uuid`. -/
def createSession (s : Store) (fresh projectId agent : String) (now : ℕ) : Except String Store := do
  let _ ← s.project projectId
  bailIf (s.sessions.any (·.id = fresh)) "UNIQUE constraint failed: sessions.id"
  let session : Session :=
    { id := fresh, projectId, title := "新任务", agent, status := .ready, createdAt := now }
  .ok { s with sessions := s.sessions ++ [session] }

/-- `has_active_sessions`. -/
def hasActiveSessions (s : Store) : Bool := s.sessions.any (·.status.active)

/-- `archive_session`. -/
def archiveSession (s : Store) (id : String) (archived : Bool) : Except String Store := do
  let session ← s.session id
  bailIf (archived ∧ session.status.active) "请先停止任务，再归档会话"
  .ok (s.save { session with
    archived
    pinnedAt := if archived then none else session.pinnedAt })

/-- `char::is_control`. -/
def isControl (c : Char) : Bool := c.toNat < 32 || (127 ≤ c.toNat && c.toNat < 160)

/-- `sync_native_title`: a title that is no title, or would replace a name the user gave, is left. -/
def syncNativeTitle (s : Store) (id title : String) (custom : Bool) : Except String Store := do
  let session ← s.session id
  if blank title ∨ 200 < title.length ∨ title.toList.any isControl then .ok s
  else if session.customTitle ∧ ¬custom then .ok s
  else if session.title ≠ title ∨ (custom ∧ ¬session.customTitle) then
    .ok (s.save { session with title, customTitle := session.customTitle || custom })
  else .ok s

/-- The native id an agent gave its session. -/
def saveNativeSession (s : Store) (id native : String) : Except String Store := do
  let session ← s.session id
  .ok (s.save { session with nativeId := some native })

/-- The statuses a turn ends with; entering one from a live status marks the session unread. -/
def terminal : Status → Bool
  | .completed | .failed | .stopped => true
  | _ => false

/-- `state`: the new status and its event. -/
def state (s : Store) (id : String) (status : Status) (message : Option String) (now : ℕ) :
    Except String Store := do
  let session ← s.session id
  let session := { session with
    unread := session.unread || (session.status.active && terminal status)
    status }
  .ok ((s.save session).insertEvent id (.state status message) now)

end Store

namespace Subagent

/-- The child an update names for the first time. -/
def created (update : SubagentUpdate) (now : ℕ) : Subagent where
  id := update.id
  nativeId := update.id
  toolUseId := update.toolUseId
  title := "子智能体"
  agentType := none
  status := .unknown
  summary := none
  lastTool := none
  startedAt := none
  updatedAt := now

/-- Out-of-order progress cannot resurrect a confirmed terminal task. -/
def mergeStatus (task : Subagent) (status : SubagentStatus) (now : ℕ) : Subagent :=
  { task with
    status :=
      if task.status.active ∨ task.status = .unknown ∨ ¬status.active then status else task.status
    startedAt :=
      if status.active ∧ task.startedAt.isNone then some now else task.startedAt }

/-- The child's row after an update: what the update leaves out stays. -/
def merge (task : Subagent) (update : SubagentUpdate) (now : ℕ) : Subagent :=
  let task := { task with
    nativeId := update.id
    toolUseId := update.toolUseId <|> task.toolUseId
    title := update.title.getD task.title
    agentType := update.agentType <|> task.agentType }
  let task := match update.status with
    | none => task
    | some status => task.mergeStatus status now
  { task with
    summary := update.summary <|> task.summary
    lastTool := update.lastTool <|> task.lastTool
    updatedAt := now }

end Subagent

namespace SubagentRow

/-- The rows an update may mean: by id, by native id, or by tool use. -/
def names (id : String) (update : SubagentUpdate) (row : SubagentRow) : Bool :=
  row.sessionId = id &&
    (row.task.id = update.id || row.task.nativeId = update.id ||
      (row.task.toolUseId.isSome && row.task.toolUseId = update.toolUseId))

/-- `INSERT ... ON CONFLICT(session_id,id) DO UPDATE`. -/
def upsert (row : SubagentRow) (rows : List SubagentRow) : List SubagentRow :=
  if rows.any fun r => r.sessionId = row.sessionId && r.task.id = row.task.id then
    updateWhere (fun r => r.sessionId = row.sessionId && r.task.id = row.task.id)
      (fun _ => row) rows
  else rows ++ [row]

end SubagentRow

namespace Store

/-- The row an update is merged into: of those it may mean, the one touched last. -/
def subagentFor (s : Store) (id : String) (update : SubagentUpdate) : Option Subagent :=
  (((s.subagents.filter (SubagentRow.names id update)).insertionSort
    fun a b => b.task.updatedAt ≤ a.task.updatedAt).head?).map (·.task)

/-- What `event` does with a child update: the merged row, and the update under the row's id. -/
def recordSubagent (s : Store) (id : String) (update : SubagentUpdate) (now : ℕ) :
    Store × SubagentUpdate :=
  let task := ((s.subagentFor id update).getD (Subagent.created update now)).merge update now
  ({ s with subagents := SubagentRow.upsert { sessionId := id, task } s.subagents },
    { update with id := task.id })

/-- `event`. -/
def event (s : Store) (id : String) (event : EventKind) (now : ℕ) : Except String Store := do
  match event with
  | .turnChanges _ =>
    let _ ← smallJson event.toJson
    s.referenceSession id
    .ok (s.insertEvent id event now)
  | .subagent update =>
    s.referenceSession id
    let (s, update) := s.recordSubagent id update now
    .ok (s.insertEvent id (.subagent update) now)
  | event =>
    s.referenceSession id
    .ok (s.insertEvent id event now)

/-- `end_subagents`: report every live child of a session with one status. -/
def endSubagents (s : Store) (id : String) (status : SubagentStatus) (now : ℕ) :
    Except String Store :=
  (s.subagents.filter fun r => r.sessionId = id && r.task.status.active).foldlM (fun s row =>
    s.event id (.subagent { id := row.task.nativeId, toolUseId := row.task.toolUseId
                            status := some status }) now) s

end Store

end LatteWork
