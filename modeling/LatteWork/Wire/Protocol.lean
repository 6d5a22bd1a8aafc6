import LatteWork.Wire.Json

/-!
# Protocol records

The records the server stores as JSON text and sends to its clients, with the text `serde` gives
each: fields in declaration order, an internally tagged enumeration with its `kind` first, a
field under `skip_serializing_if` absent when it is `None`.
-/

namespace LatteWork

/-- The largest response line a client reads. -/
def maxFrame : ℕ := 2 * 1024 * 1024

inductive Status where
  | ready | running | waiting | completed | failed | stopped | unknown
  deriving DecidableEq, Repr, Inhabited

namespace Status

/-- A turn is under way. -/
def active : Status → Bool
  | running | waiting => true
  | _ => false

def asStr : Status → String
  | ready => "ready"
  | running => "running"
  | waiting => "waiting"
  | completed => "completed"
  | failed => "failed"
  | stopped => "stopped"
  | unknown => "unknown"

end Status

inductive Effort where
  | low | medium | high | xhigh | max
  deriving DecidableEq, Repr, Inhabited

def Effort.asStr : Effort → String
  | low => "low"
  | medium => "medium"
  | high => "high"
  | xhigh => "xhigh"
  | max => "max"

inductive ExecutionPhase where
  | waiting | thinking | replying
  deriving DecidableEq, Repr, Inhabited

def ExecutionPhase.asStr : ExecutionPhase → String
  | waiting => "waiting"
  | thinking => "thinking"
  | replying => "replying"

inductive SubagentStatus where
  | running | paused | completed | failed | stopped | unknown
  deriving DecidableEq, Repr, Inhabited

namespace SubagentStatus

def active : SubagentStatus → Bool
  | running | paused => true
  | _ => false

def asStr : SubagentStatus → String
  | running => "running"
  | paused => "paused"
  | completed => "completed"
  | failed => "failed"
  | stopped => "stopped"
  | unknown => "unknown"

end SubagentStatus

inductive TurnUndoStatus where
  | ready | reverted | unknown
  deriving DecidableEq, Repr, Inhabited

def TurnUndoStatus.asStr : TurnUndoStatus → String
  | ready => "ready"
  | reverted => "reverted"
  | unknown => "unknown"

structure Session where
  id : String
  projectId : String
  title : String
  agent : String
  nativeId : Option String := none
  model : Option String := none
  effort : Option Effort := none
  permissionMode : Option String := none
  status : Status
  createdAt : ℕ
  customTitle : Bool := false
  pinnedAt : Option ℕ := none
  unread : Bool := false
  archived : Bool := false
  agentSessionOpen : Option Bool := none
  agentSessionBusy : Option Bool := none
  deriving DecidableEq, Repr, Inhabited

def Session.toJson (s : Session) : Json :=
  .obj ([("id", .str s.id), ("project_id", .str s.projectId), ("title", .str s.title),
    ("agent", .str s.agent), ("native_id", .opt .str s.nativeId), ("model", .opt .str s.model),
    ("effort", .opt (.str ∘ Effort.asStr) s.effort),
    ("permission_mode", .opt .str s.permissionMode), ("status", .str s.status.asStr),
    ("created_at", .f64 s.createdAt), ("custom_title", .bool s.customTitle),
    ("pinned_at", .opt .f64 s.pinnedAt), ("unread", .bool s.unread),
    ("archived", .bool s.archived)] ++
    Json.optField "agent_session_open" .bool s.agentSessionOpen ++
    Json.optField "agent_session_busy" .bool s.agentSessionBusy)

/-- A message waiting for the agent, as the client sees it. -/
structure QueuedMessage where
  requestId : String
  text : String
  model : Option String
  effort : Option Effort
  permissionMode : Option String
  revision : ℕ
  createdAt : ℕ
  deriving DecidableEq, Repr, Inhabited

def QueuedMessage.toJson (m : QueuedMessage) : Json :=
  .obj [("request_id", .str m.requestId), ("text", .str m.text), ("model", .opt .str m.model),
    ("effort", .opt (.str ∘ Effort.asStr) m.effort),
    ("permission_mode", .opt .str m.permissionMode), ("revision", .nat m.revision),
    ("created_at", .f64 m.createdAt)]

structure TaskChange where
  path : String
  status : String
  added : Option ℕ
  removed : Option ℕ
  deriving DecidableEq, Repr, Inhabited

def TaskChange.toJson (c : TaskChange) : Json :=
  .obj [("path", .str c.path), ("status", .str c.status), ("added", .opt .nat c.added),
    ("removed", .opt .nat c.removed)]

structure ChangeSummary where
  entries : List TaskChange
  totalFiles : Option ℕ := none
  nextOffset : Option ℕ := none
  offset : Option ℕ := none
  added : ℕ := 0
  removed : ℕ := 0
  binaryFiles : ℕ := 0
  truncated : Bool := false
  baselineAt : Option ℕ := none
  unavailable : Option String := none
  deriving DecidableEq, Repr, Inhabited

def ChangeSummary.toJson (s : ChangeSummary) : Json :=
  .obj ([("entries", .arr (s.entries.map TaskChange.toJson))] ++
    Json.optField "total_files" .nat s.totalFiles ++
    Json.optField "next_offset" .nat s.nextOffset ++ Json.optField "offset" .nat s.offset ++
    [("added", .nat s.added), ("removed", .nat s.removed), ("binary_files", .nat s.binaryFiles),
      ("truncated", .bool s.truncated), ("baseline_at", .opt .f64 s.baselineAt),
      ("unavailable", .opt .str s.unavailable)])

/-- The files one turn changed, and whether the change was undone. -/
structure TurnChanges where
  requestId : String
  summary : ChangeSummary
  interrupted : Bool
  backgroundPending : Bool
  undo : TurnUndoStatus
  deriving DecidableEq, Repr, Inhabited

def TurnChanges.toJson (c : TurnChanges) : Json :=
  .obj [("request_id", .str c.requestId), ("summary", c.summary.toJson),
    ("interrupted", .bool c.interrupted), ("background_pending", .bool c.backgroundPending),
    ("undo", .str c.undo.asStr)]

structure SubagentUpdate where
  id : String
  toolUseId : Option String := none
  title : Option String := none
  agentType : Option String := none
  status : Option SubagentStatus := none
  summary : Option String := none
  lastTool : Option String := none
  deriving DecidableEq, Repr, Inhabited

def SubagentUpdate.toJson (u : SubagentUpdate) : Json :=
  .obj ([("id", .str u.id), ("tool_use_id", .opt .str u.toolUseId), ("title", .opt .str u.title)] ++
    Json.optField "agent_type" .str u.agentType ++
    [("status", .opt (.str ∘ SubagentStatus.asStr) u.status), ("summary", .opt .str u.summary),
      ("last_tool", .opt .str u.lastTool)])

structure ContextUsage where
  model : String
  usedTokens : ℕ
  windowTokens : Option ℕ
  deriving DecidableEq, Repr, Inhabited

def ContextUsage.toJson (u : ContextUsage) : Json :=
  .obj [("model", .str u.model), ("used_tokens", .f64 u.usedTokens),
    ("window_tokens", .opt .f64 u.windowTokens)]

structure TurnUsage where
  inputTokens : Option ℕ
  cacheReadTokens : Option ℕ
  cacheWriteTokens : Option ℕ
  outputTokens : Option ℕ
  modelTimeMs : Option ℕ
  steps : Option ℕ
  deriving DecidableEq, Repr, Inhabited

def TurnUsage.toJson (u : TurnUsage) : Json :=
  .obj [("input_tokens", .opt .f64 u.inputTokens),
    ("cache_read_tokens", .opt .f64 u.cacheReadTokens),
    ("cache_write_tokens", .opt .f64 u.cacheWriteTokens),
    ("output_tokens", .opt .f64 u.outputTokens), ("model_time_ms", .opt .f64 u.modelTimeMs),
    ("steps", .opt .f64 u.steps)]

structure QuestionOption where
  label : String
  description : String
  deriving DecidableEq, Repr, Inhabited

def QuestionOption.toJson (o : QuestionOption) : Json :=
  .obj [("label", .str o.label), ("description", .str o.description)]

structure UserQuestion where
  id : String
  header : String
  text : String
  options : List QuestionOption
  multiSelect : Bool
  deriving DecidableEq, Repr, Inhabited

def UserQuestion.toJson (q : UserQuestion) : Json :=
  .obj [("id", .str q.id), ("header", .str q.header), ("text", .str q.text),
    ("options", .arr (q.options.map QuestionOption.toJson)), ("multi_select", .bool q.multiSelect)]

structure QuestionAnswer where
  questionId : String
  optionIndices : List ℕ
  text : Option String
  deriving DecidableEq, Repr, Inhabited

def QuestionAnswer.toJson (a : QuestionAnswer) : Json :=
  .obj [("question_id", .str a.questionId), ("option_indices", .arr (a.optionIndices.map .nat)),
    ("text", .opt .str a.text)]

/-- One presentation event of a session. -/
inductive EventKind where
  | turnChanges (changes : TurnChanges)
  | subagent (update : SubagentUpdate)
  | progress (phase : ExecutionPhase)
  | usage (context : Option ContextUsage) (totals : Option TurnUsage)
  | user (text requestId : String)
  | queuedMessageSent (text requestId : String)
  | text (text : String)
  | tool (id name : String) (input : Json)
  | toolResult (id : String) (content : Json) (isError : Bool)
  | question (requestId : String) (toolUseId : Option String) (questions : List UserQuestion)
  | questionResolved (requestId : String) (answers : Option (List QuestionAnswer))
  | approval (requestId : String) (toolUseId : Option String) (tool : String) (input : Json)
  | approvalResolved (requestId : String) (allow : Bool)
  | state (status : Status) (message : Option String)
  | notice (text : String)
  deriving Inhabited

namespace EventKind

def kind : EventKind → String
  | turnChanges _ => "turn_changes"
  | subagent _ => "subagent"
  | progress _ => "progress"
  | usage .. => "usage"
  | user .. => "user"
  | queuedMessageSent .. => "queued_message_sent"
  | text _ => "text"
  | tool .. => "tool"
  | toolResult .. => "tool_result"
  | question .. => "question"
  | questionResolved .. => "question_resolved"
  | approval .. => "approval"
  | approvalResolved .. => "approval_resolved"
  | state .. => "state"
  | notice _ => "notice"

def fields : EventKind → List (String × Json)
  | turnChanges changes => [("changes", changes.toJson)]
  | subagent update => [("update", update.toJson)]
  | progress phase => [("phase", .str phase.asStr)]
  | usage context totals =>
    [("context", .opt ContextUsage.toJson context), ("totals", .opt TurnUsage.toJson totals)]
  | user t requestId => [("text", .str t), ("request_id", .str requestId)]
  | queuedMessageSent t requestId => [("text", .str t), ("request_id", .str requestId)]
  | text t => [("text", .str t)]
  | tool id name input => [("id", .str id), ("name", .str name), ("input", input)]
  | toolResult id content isError =>
    [("id", .str id), ("content", content), ("is_error", .bool isError)]
  | question requestId toolUseId questions =>
    [("request_id", .str requestId), ("tool_use_id", .opt .str toolUseId),
      ("questions", .arr (questions.map UserQuestion.toJson))]
  | questionResolved requestId answers =>
    [("request_id", .str requestId),
      ("answers", .opt (fun l => .arr (l.map QuestionAnswer.toJson)) answers)]
  | approval requestId toolUseId name input =>
    [("request_id", .str requestId)] ++ Json.optField "tool_use_id" .str toolUseId ++
      [("tool", .str name), ("input", input)]
  | approvalResolved requestId allow => [("request_id", .str requestId), ("allow", .bool allow)]
  | state status message => [("status", .str status.asStr), ("message", .opt .str message)]
  | notice t => [("text", .str t)]

def toJson (e : EventKind) : Json :=
  .obj (("kind", .str e.kind) :: e.fields)

/-- The request a prompt row names. -/
def userRequest : EventKind → Option String
  | user _ requestId => some requestId
  | _ => none

/-- The request a hand-off row names. -/
def sentRequest : EventKind → Option String
  | queuedMessageSent _ requestId => some requestId
  | _ => none

/-- Neither a prompt nor a hand-off. Those two the database writes itself, when it admits a
request or records a hand-off. -/
def fromAgent (e : EventKind) : Bool := e.userRequest.isNone && e.sentRequest.isNone

end EventKind

/-- An event that is logged on its own: an agent's, or the server's remark about one. -/
structure AgentEvent where
  event : EventKind
  fromAgent : event.fromAgent = true := by exact Eq.refl true

structure Event where
  seq : ℕ
  sessionId : String
  atMs : ℕ
  event : EventKind
  deriving Inhabited

def Event.toJson (e : Event) : Json :=
  .obj [("seq", .f64 e.seq), ("session_id", .str e.sessionId), ("at", .f64 e.atMs),
    ("event", e.event.toJson)]

/-- The two answers that carry a part of a session's log. -/
inductive Response where
  | history (events : List Event) (session : Session) (hasMore needsEarlier : Bool)
      (before : Option ℕ)
  | events (events : List Event) (session : Session) (hasMore : Bool)
  deriving Inhabited

def Response.toJson : Response → Json
  | history page session hasMore needsEarlier before =>
    .obj [("kind", .str "history"), ("events", .arr (page.map Event.toJson)),
      ("session", session.toJson), ("has_more", .bool hasMore),
      ("needs_earlier", .bool needsEarlier), ("before", .opt .f64 before)]
  | events page session hasMore =>
    .obj [("kind", .str "events"), ("events", .arr (page.map Event.toJson)),
      ("session", session.toJson), ("has_more", .bool hasMore)]

/-- `project_session_state`: what the live process says of a session, for an answer only. -/
def Session.projectState (isOpen busy : Bool) (session : Session) : Session :=
  { session with
    agentSessionOpen := some isOpen
    agentSessionBusy := some (busy || session.status.active) }

end LatteWork
