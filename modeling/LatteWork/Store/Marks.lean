import LatteWork.Store.Projects

/-!
# What the user sets on a session, and what was recent

A name, a mark that the session was not read, and the list of conversations by their last activity.
-/

namespace LatteWork

open Fallible Table

namespace Store

/-- `validate_session_title`. -/
def validateSessionTitle (title : String) : Except String String := do
  let title := trim title
  bailIf (title = "" ∨ 100 < title.length ∨ title.toList.any isControl)
    "会话名称不能为空、超过 100 个字符或包含控制字符"
  .ok title

/-- `rename_session`. -/
def renameSession (s : Store) (id title : String) : Except String Store := do
  let title ← validateSessionTitle title
  let session ← s.session id
  .ok (s.save { session with title, customTitle := true })

/-- `mark_session_unread`. -/
def markSessionUnread (s : Store) (id : String) (unread : Bool) : Except String Store := do
  let session ← s.session id
  .ok (s.save { session with unread })

end Store

/-- Where a list of recent conversations goes on. -/
structure RecentCursor where
  updatedAt : ℕ
  id : String
  deriving DecidableEq, Repr, Inhabited

structure RecentSession where
  session : Session
  updatedAt : ℕ
  deriving DecidableEq, Repr, Inhabited

/-- `ORDER BY updated_at DESC,id DESC`. -/
def RecentSession.before (a b : RecentSession) : Prop :=
  b.updatedAt < a.updatedAt ∨ b.updatedAt = a.updatedAt ∧ b.session.id ≤ a.session.id

instance : DecidableRel RecentSession.before := fun a b => by
  unfold RecentSession.before
  infer_instance

/-- `WHERE ?1 IS NULL OR updated_at<?1 OR (updated_at=?1 AND id<?2)`. -/
def RecentSession.behind (before : Option RecentCursor) (row : RecentSession) : Bool :=
  match before with
  | none => true
  | some cursor => row.updatedAt < cursor.updatedAt ||
      (row.updatedAt = cursor.updatedAt && row.session.id < cursor.id)

/-- The kinds of events that make a conversation recent. -/
def activityKinds : List String :=
  ["user", "queued_message_sent", "text", "tool", "tool_result", "approval", "approval_resolved",
    "subagent"]

namespace ProjectStore

/-- The newest activity of a session: `ORDER BY e.seq DESC LIMIT 1`. -/
def lastActivity (s : ProjectStore) (id : String) : Option EventRow :=
  ((s.store.events.filter fun e => e.sessionId = id && activityKinds.contains e.event.kind).insertionSort
    fun a b => b.seq ≤ a.seq).head?

/-- The rows of `WITH recent`. -/
def recent (s : ProjectStore) : List RecentSession :=
  (s.store.sessions.filter fun x => !x.archived && !s.hiddenProjects.contains x.projectId).map
    fun session => { session, updatedAt := ((s.lastActivity session.id).map (·.atMs)).getD session.createdAt }

/-- `recent_sessions`. -/
def recentSessions (s : ProjectStore) (before : Option RecentCursor) :
    Except String (List RecentSession × Option RecentCursor) := do
  bailIf (∃ cursor ∈ before, cursor.id = "" ∨ 128 < cursor.id.utf8ByteSize) "最近记录游标无效"
  let rows := ((s.recent.filter (RecentSession.behind before)).insertionSort
    RecentSession.before).take 101
  let sessions := rows.take 100
  .ok (sessions,
    if 100 < rows.length then
      sessions.getLast?.map fun last => { updatedAt := last.updatedAt, id := last.session.id }
    else none)

end ProjectStore

/-- One call into the database that the user makes for a session, or any other. -/
inductive SessionOp where
  | rename (id title : String)
  | markUnread (id : String) (unread : Bool)
  | project (op : ProjectOp)

namespace ProjectStore

/-- An operation at a time. -/
def applySession (resolve : String → Option ResolvedPath) (s : ProjectStore) (o : SessionOp × ℕ) :
    Except String ProjectStore :=
  match o with
  | (.rename id title, _) => (s.store.renameSession id title).map fun store => { s with store }
  | (.markUnread id unread, _) =>
    (s.store.markSessionUnread id unread).map fun store => { s with store }
  | (.project op, now) => s.apply resolve (op, now)

/-- An attempted operation. A refused one changes nothing. -/
def sessionStep (resolve : String → Option ResolvedPath) :
    ProjectStore → SessionOp × ℕ → ProjectStore :=
  Runs.attempt (applySession resolve)

end ProjectStore

end LatteWork
