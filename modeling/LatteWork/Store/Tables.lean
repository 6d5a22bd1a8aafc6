import LatteWork.Lib.Fallible
import LatteWork.Lib.Table
import LatteWork.Snapshot.Records

/-!
# The database

The tables of the server's SQLite file as one value, each table the list of its rows in insertion
order, and the reads and writes that every operation shares. A row holds the record its JSON
column decodes to; sizes are counted on the text of the record. An operation returns the new
database, or an error and then none of its writes: every operation of the source either writes
once or writes under a transaction.
-/

namespace LatteWork

structure Project where
  id : String
  name : String
  path : String
  deriving DecidableEq, Repr, Inhabited

structure Subagent where
  id : String
  nativeId : String
  toolUseId : Option String
  title : String
  agentType : Option String
  status : SubagentStatus
  summary : Option String
  lastTool : Option String
  startedAt : Option ℕ
  updatedAt : ℕ
  deriving DecidableEq, Repr, Inhabited

/-- A row of `subagents`. Its other columns repeat fields of `task`. -/
structure SubagentRow where
  sessionId : String
  task : Subagent
  deriving DecidableEq, Repr, Inhabited

/-- A row of `events`. -/
structure EventRow where
  seq : ℕ
  sessionId : String
  atMs : ℕ
  event : EventKind
  deriving Inhabited

/-- A row of `requests`: what was admitted under a request id. -/
structure RequestRow where
  id : String
  sessionId : String
  text : String
  model : Option String
  effort : Option Effort
  providerFingerprint : Option String
  permissionMode : Option String
  deriving DecidableEq, Repr, Inhabited

inductive QueueStatus where
  | pending | forwarded | taken | cancelled | dispatched | uncertain
  deriving DecidableEq, Repr, Inhabited

/-- The message is over: no operation of the queue touches it again. -/
def QueueStatus.final : QueueStatus → Bool
  | .pending | .forwarded => false
  | _ => true

/-- A row of `message_queue`. `admission` is the message as it was first queued, `data` as it was
last edited. -/
structure QueueRow where
  position : ℕ
  requestId : String
  sessionId : String
  admission : QueuedMessage
  data : QueuedMessage
  fingerprint : Option String
  status : QueueStatus := .pending
  sortOrder : ℕ
  deriving DecidableEq, Repr, Inhabited

/-- A row of `message_queue_state`. -/
structure QueueStateRow where
  sessionId : String
  paused : Bool := false
  reason : Option String := none
  deriving DecidableEq, Repr, Inhabited

/-- A row of `turn_changes`: a turn under way has a baseline, a finished one has data. -/
structure TurnRow where
  sessionId : String
  requestId : String
  baseline : Option Snapshot
  data : Option FrozenTurn
  deriving DecidableEq, Repr, Inhabited

/-- A turn of the session that is under way. -/
def TurnRow.runningIn (id : String) (row : TurnRow) : Bool :=
  row.sessionId = id && row.baseline.isSome

/-- A row of `task_baselines`. -/
structure TaskBaselineRow where
  sessionId : String
  data : Snapshot
  deriving DecidableEq, Repr, Inhabited

/-- The database. `lastSeq` and `lastPosition` are the counters of its two `AUTOINCREMENT`
columns. -/
structure Store where
  projects : List Project := []
  sessions : List Session := []
  subagents : List SubagentRow := []
  events : List EventRow := []
  lastSeq : ℕ := 0
  requests : List RequestRow := []
  messageQueue : List QueueRow := []
  lastPosition : ℕ := 0
  messageQueueState : List QueueStateRow := []
  turnChanges : List TurnRow := []
  taskBaselines : List TaskBaselineRow := []
  deriving Inhabited

/-- `char::is_whitespace`. -/
def isWhitespace (c : Char) : Bool :=
  let n := c.toNat
  (9 ≤ n && n ≤ 13) || n = 0x20 || n = 0x85 || n = 0xA0 || n = 0x1680 ||
    (0x2000 ≤ n && n ≤ 0x200A) || n = 0x2028 || n = 0x2029 || n = 0x202F || n = 0x205F || n = 0x3000

/-- `text.trim().is_empty()`. -/
def blank (text : String) : Bool := text.toList.all isWhitespace

namespace Store

open Fallible Table

/-- `session`: the row of a session. -/
def session (s : Store) (id : String) : Except String Session :=
  orError "会话不存在" (s.sessions.find? (·.id = id))

/-- `project`: the row of a project, hidden or not. -/
def project (s : Store) (id : String) : Except String Project :=
  orError "项目不存在" (s.projects.find? (·.id = id))

/-- `save`: overwrite the row of a session. -/
def save (s : Store) (session : Session) : Store :=
  { s with sessions := updateWhere (·.id = session.id) (fun _ => session) s.sessions }

/-- `INSERT INTO events`, for a session that has a row. -/
def insertEvent (s : Store) (id : String) (event : EventKind) (atMs : ℕ) : Store :=
  { s with
    events := s.events ++ [{ seq := s.lastSeq + 1, sessionId := id, atMs, event }]
    lastSeq := s.lastSeq + 1 }

/-- The foreign key of a row that names a session. -/
def referenceSession (s : Store) (id : String) : Except String Unit :=
  bailIf ((s.sessions.find? (·.id = id)).isNone) "FOREIGN KEY constraint failed"

@[simp] theorem save_events (s : Store) (x : Session) : (s.save x).events = s.events := rfl
@[simp] theorem save_lastSeq (s : Store) (x : Session) : (s.save x).lastSeq = s.lastSeq := rfl
@[simp] theorem save_requests (s : Store) (x : Session) : (s.save x).requests = s.requests := rfl
@[simp] theorem save_messageQueue (s : Store) (x : Session) :
    (s.save x).messageQueue = s.messageQueue := rfl
@[simp] theorem save_messageQueueState (s : Store) (x : Session) :
    (s.save x).messageQueueState = s.messageQueueState := rfl
@[simp] theorem save_turnChanges (s : Store) (x : Session) :
    (s.save x).turnChanges = s.turnChanges := rfl

section

variable (s : Store) (id : String) (event : EventKind) (atMs : ℕ)

@[simp] theorem insertEvent_sessions : (s.insertEvent id event atMs).sessions = s.sessions := rfl
@[simp] theorem insertEvent_requests : (s.insertEvent id event atMs).requests = s.requests := rfl
@[simp] theorem insertEvent_messageQueue :
    (s.insertEvent id event atMs).messageQueue = s.messageQueue := rfl
@[simp] theorem insertEvent_turnChanges :
    (s.insertEvent id event atMs).turnChanges = s.turnChanges := rfl
@[simp] theorem insertEvent_events : (s.insertEvent id event atMs).events =
    s.events ++ [{ seq := s.lastSeq + 1, sessionId := id, atMs, event }] := rfl

end

theorem session_eq_ok {s : Store} {id : String} {x : Session} :
    s.session id = .ok x ↔ s.sessions.find? (·.id = id) = some x := by
  simp [session]

theorem session_mem {s : Store} {id : String} {x : Session} (h : s.session id = .ok x) :
    x ∈ s.sessions ∧ x.id = id := by
  rw [session_eq_ok] at h
  exact ⟨List.mem_of_find?_eq_some h, by simpa using List.find?_some h⟩

end Store

end LatteWork
