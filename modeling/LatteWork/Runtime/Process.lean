import LatteWork.Lib.Program
import LatteWork.Runtime.Adapter
import LatteWork.Server.Turns
import LatteWork.Store.Operations

/-!
# The agent process of a session

What a session's actor keeps of its agent, and what it does with the actions the adapter answers.
The actor runs over an explicit state: the database, its own fields, and the outcomes of what the
operating system will be asked.
-/

namespace LatteWork

/-- A question or approval that waits for the user: the agent's own id and input. -/
structure Interaction where
  nativeId : String
  input : Json
  questions : Option (List UserQuestion)

/-- `Process`. Processes of a session are told apart by the order they were spawned in, and the
controls that wait for an answer by their number. -/
structure Process (α : Type) where
  pid : ℕ
  adapter : α
  config : LaunchConfig
  ready : Bool := false
  pending : List (String × Interaction) := []
  renameReply : Option ℕ := none
  turnActive : Bool := false
  backgroundAtStart : Bool := false
  stopping : Bool := false
  interruptSent : Bool := false
  interruptAckPending : Bool := false
  stopReply : Option ℕ := none

/-- `SendTurn`. -/
structure SendTurn where
  requestId : String
  text : String
  model : Option String
  fingerprint : Option String
  config : LaunchConfig
  deriving DecidableEq, Repr, Inhabited

/-- What the database compares of a turn. -/
def SendTurn.submission (t : SendTurn) : Submission where
  requestId := t.requestId
  text := t.text
  model := t.model
  effort := t.config.effort
  fingerprint := t.fingerprint
  permissionMode := t.config.permissionMode

/-- A message that is sent next, once the agent is free. -/
structure Immediate where
  turn : SendTurn
  restoreReason : Option String
  reply : ℕ

/-- An answer to a control. -/
inductive Answer where
  | done
  | sent (response : Store.SendResponse)
  | title (title : String)
  | queue (entries : List QueuedMessage) (paused : Bool) (reason : Option String)
  | taken (entry : QueuedMessage)
  deriving Repr

/-- What the user decided about an interaction. -/
inductive Decision where
  | allow (allow : Bool)
  | answers (answers : Option (List QuestionAnswer))
  deriving DecidableEq

/-- What an actor did, in order: the processes it started and ended, the operations the database
took, the prompts it gave to the adapter and whether the adapter took them, the interactions that
began to wait under an id, the decisions it gave to the adapter, the frames it wrote, and its
answers. -/
inductive Output where
  | spawned (pid : ℕ)
  | closed (pid : ℕ)
  | committed (op : StoreOp) (now : ℕ)
  | started (requestId prompt : String)
  | handed (pid : ℕ) (requestId : String) (revision : ℕ) (accepted : Bool)
  | asked (pid : ℕ) (publicId : String) (interaction : Interaction)
  | answered (pid : ℕ) (publicId : String) (interaction : Interaction) (decision : Decision)
  | cleared
  | wrote (frame : Json)
  | replied (waiter : ℕ) (answer : Except String Answer)

/-- Outcomes of what the operating system is asked, in the order it is asked. A list that is used
up answers that all went well. -/
structure Outside where
  now : ℕ
  uuids : List String := []
  writes : List (Option String) := []
  spawns : List (Option String) := []
  captures : List Snapshot := []
  children : List (Option String) := []

/-- The state of a session actor. `forwarded` are the keys of the source's `ForwardedInputs`;
`admitted` says that the message in hand was answered on its admission. -/
structure Actor (α : Type) where
  store : Store
  objects : Objects := []
  spawned : ℕ := 0
  process : Option (Process α) := none
  forwarded : List String := []
  immediate : Option Immediate := none
  queuedConfigs : List (String × LaunchConfig) := []
  opening : List ℕ := []
  admitted : Bool := false
  outside : Outside
  outputs : List Output := []

/-- What does not change while an actor runs: the external code, the adapter, the session and its
directory. -/
structure Setting (α : Type) where
  svc : Services
  fromValue : Json → Option AgentEvent
  agent : AgentAdapter α
  session : String

abbrev Act (α β : Type) := Prog (Actor α) String β

namespace Act

open Prog

variable {α β : Type}

def emit (o : Output) : Act α Unit := update fun w => { w with outputs := w.outputs ++ [o] }

/-- `db`: one operation of the database. -/
def db (op : StoreOp) : Act α Unit := do
  let w ← current
  let store ← lift (w.store.apply (op, w.outside.now))
  update fun w => { w with store }
  emit (.committed op w.outside.now)

/-- `db`, for a call that only reads. -/
def read (f : Store → Except String β) : Act α β := do
  let w ← current
  lift (f w.store)

def reply (waiter : Option ℕ) (answer : Except String Answer) : Act α Unit :=
  match waiter with
  | none => pure ()
  | some waiter => emit (.replied waiter answer)

/-- The next outcome of a list of them. -/
def outcome (list : Outside → List (Option String)) (rest : Outside → Outside) : Act α Unit := do
  let w ← current
  update fun w => { w with outside := rest w.outside }
  match (list w.outside).head?.join with
  | none => pure ()
  | some e => fail e

def freshUuid : Act α String := do
  let w ← current
  update fun w => { w with outside := { w.outside with uuids := w.outside.uuids.tail } }
  pure (w.outside.uuids.head?.getD "")

/-- `write`. -/
def write (frame : Json) : Act α Unit := do
  bailIf (maxFrame < frame.size + 1) "Agent 输出请求超出限制"
  outcome Outside.writes fun o => { o with writes := o.writes.tail }
  emit (.wrote frame)

/-- `Snapshot::capture_stored`, or the placeholder of one that failed. -/
def capture : Act α Snapshot := do
  let w ← current
  update fun w => { w with outside := { w.outside with captures := w.outside.captures.tail } }
  pure (w.outside.captures.head?.getD (.ofUnavailable w.outside.now ""))

/-- `finish_turn`. -/
def finishTurn (ctx : Setting α) (interrupted backgroundPending : Bool) : Act α Unit := do
  let w ← current
  match w.store.pendingTurn ctx.session with
  | none => pure ()
  | some (requestId, before) =>
    let after ← capture
    let (turn, objects) ← lift (FrozenTurn.freezeOr ctx.svc w.objects requestId before.attach after
      interrupted backgroundPending w.outside.now)
    update fun w => { w with objects }
    db (.finishTurn ctx.session turn)

/-- Change the fields of the process, if there is one. -/
def setProcess (f : Process α → Process α) : Act α Unit :=
  update fun w => { w with process := w.process.map f }

/-- The actor's process, or the error of `context`. -/
def theProcess (e : String) : Act α (Process α) := do
  let w ← current
  orError e w.process

/-- `adapter.advance`. -/
def advance (ctx : Setting α) (input : Input) : Act α (List Action) := do
  let p ← theProcess "Agent process missing"
  setProcess fun q => { q with adapter := (ctx.agent.advance p.adapter input).2 }
  lift (ctx.agent.advance p.adapter input).1

/-- An event of the agent, redacted. -/
def logEvent (ctx : Setting α) (config : LaunchConfig) (e : AgentEvent) : Act α Unit := do
  let e ← lift (config.redactEvent ctx.fromValue e)
  db (.event ctx.session e)

/-- A child that ended: its output is captured, while the process can tell it. -/
def captureChild (e : AgentEvent) : Act α Unit :=
  match e.event with
  | .subagent update =>
    if update.status.any (!·.active) then
      outcome Outside.children fun o => { o with children := o.children.tail }
    else pure ()
  | _ => pure ()

/-- A question or approval begins to wait. -/
def ask (ctx : Setting α) (config : LaunchConfig) (limit : String) (i : Interaction)
    (event : String → AgentEvent) : Act α Unit := do
  let p ← theProcess "Agent process missing"
  bailIf (32 ≤ p.pending.length) limit
  let publicId ← freshUuid
  setProcess fun p => { p with
    pending := p.pending.filter (·.1 ≠ publicId) ++ [(publicId, i)] }
  emit (.asked p.pid publicId i)
  logEvent ctx config (event publicId)
  db (.state ctx.session .waiting none)

/-- One turn of the loop of `TurnState::apply`, for an action that does not end it. -/
def applyAction (ctx : Setting α) (config : LaunchConfig) : Action → Act α Unit
  | .nativeName title => db (.nativeTitle ctx.session title true)
  | .generatedTitle nativeSessionId title => do
    let session ← read fun s => s.session ctx.session
    if session.nativeId = some nativeSessionId then db (.nativeTitle ctx.session title false)
    else pure ()
  | .titleRenamed _ => fail "未处理的原生标题确认"
  | .sourceUsed .. => pure ()
  | .commands _ => fail "执行中的 Agent 返回了意外的命令目录"
  | .write frame => write frame
  | .metadataWrite frame => do
    let _ ← attempt (write frame)
    pure ()
  | .ready => setProcess fun p => { p with ready := true }
  | .interrupted => pure ()
  | .inputsConsumed requests => db (.consumeForwarded ctx.session requests)
  | .inputRejected requestId message =>
    db (.rejectForwarded ctx.session requestId (config.redact message))
  | .turnStarted => do
    let session ← read fun s => s.session ctx.session
    if session.status.active then pure () else db (.state ctx.session .running none)
  | .nativeSession id => db (.nativeSession ctx.session id)
  | .event e => do
    logEvent ctx config e
    captureChild e
  | .subagentEvent toolUseId e => do
    let _ ← lift (config.redactEvent ctx.fromValue e)
    read fun s => Fallible.bailIf (¬s.subagents.any fun row =>
      row.sessionId = ctx.session && row.task.toolUseId = some toolUseId)
      "子智能体输出无法关联到原生任务"
  | .question id toolUseId input questions =>
    ask ctx config "待处理交互数量超出限制" { nativeId := id, input, questions := some questions }
      fun publicId => { event := .question publicId toolUseId questions }
  | .approval id toolUseId tool input =>
    ask ctx config "待审批工具数量超出限制" { nativeId := id, input, questions := none }
      fun publicId => { event := .approval publicId toolUseId tool input }
  | .finished .. => pure ()

/-- `TurnState::apply`: the actions up to the end of the turn, and its outcome when it ended. -/
def applyActions (ctx : Setting α) (config : LaunchConfig) :
    List Action → Act α (Option (Status × Option String))
  | [] => pure none
  | .finished failed message :: _ =>
    pure (some (if failed then .failed else .completed, message))
  | action :: rest => do
    applyAction ctx config action
    applyActions ctx config rest

/-- A title that the agent accepted. -/
def acceptTitle (ctx : Setting α) (result : Except String String) : Act α Answer := do
  let title ← lift result
  db (.nativeTitle ctx.session title true)
  let session ← read fun s => s.session ctx.session
  pure (.title session.title)

/-- The title of a rename that the agent answered. -/
def titleRenamed (ctx : Setting α) (result : Except String String) : Act α Unit := do
  let p ← theProcess "Agent process missing"
  let outcome ← attempt (acceptTitle ctx result)
  reply p.renameReply outcome
  setProcess fun p => { p with renameReply := none }

/-- The end of a turn, as the agent reported it. -/
def endTurn (ctx : Setting α) (status : Status) (message : Option String) : Act α Unit := do
  let p ← theProcess "Agent process missing"
  bailIf (p.pending ≠ []) "Agent 在审批完成前结束了本轮任务"
  setProcess fun p => { p with turnActive := false }
  let (status, message) :=
    if p.stopping then (Status.stopped, some "已停止；已执行的文件改动不会撤销。")
    else (status, message.map p.config.redact)
  finishTurn ctx (status ≠ .completed) (p.backgroundAtStart || ctx.agent.hasBackgroundWork p.adapter)
  db (.state ctx.session status message)
  setProcess fun p => { p with stopping := false, interruptSent := false, stopReply := none }
  reply p.stopReply (.ok .done)

/-- The end of a turn, if there was one. -/
def endTurnOf (ctx : Setting α) : Option (Status × Option String) → Act α Unit
  | none => pure ()
  | some (status, message) => endTurn ctx status message

/-- The title answers of some actions. -/
def applyTitle (ctx : Setting α) : Action → Act α Unit
  | .titleRenamed result => titleRenamed ctx result
  | _ => pure ()

/-- The agent was interrupted: what waited for the user is void. -/
def clearPending : Act α Unit := do
  setProcess fun p => { p with pending := [] }
  emit .cleared

/-- An agent that became ready and was to stop meanwhile is interrupted. -/
def interruptReady (ctx : Setting α) (becameReady : Bool) : Act α Unit := do
  let p ← theProcess "Agent process missing"
  when (becameReady ∧ p.stopping ∧ ¬p.interruptSent) do
    setProcess fun p => { p with interruptSent := true, interruptAckPending := true }
    let actions ← advance ctx .interrupt
    let _ ← applyActions ctx p.config actions
    pure ()

/-- `Process::apply`. -/
def apply (ctx : Setting α) (actions : List Action) : Act α Unit := do
  forEach (applyTitle ctx) actions
  let actions := actions.filter (!·.isTitleRenamed)
  let p ← theProcess "Agent process missing"
  let interrupted := actions.any Action.isInterrupted
  let started := actions.any Action.isTurnStarted
  let becameReady := actions.any Action.isReady
  setProcess fun p => { p with
    interruptAckPending := p.interruptAckPending && !interrupted
    turnActive := p.turnActive || started
    backgroundAtStart :=
      if started then ctx.agent.hasBackgroundWork p.adapter else p.backgroundAtStart }
  when (interrupted ∨ (p.stopping ∧ actions.any Action.isFinished)) clearPending
  let outcome ← applyActions ctx p.config actions
  endTurnOf ctx outcome
  interruptReady ctx becameReady

/-- The process is gone. -/
def dropProcess : Act α Unit := do
  let w ← current
  match w.process with
  | none => pure ()
  | some p =>
    update fun w => { w with process := none }
    emit (.closed p.pid)

/-- `Process::close`, and the actor without a process. -/
def close : Act α Unit := do
  let w ← current
  reply (w.process.bind (·.renameReply)) (.error "原生会话已关闭，标题修改结果待确认")
  dropProcess

/-- `Process::spawn`. -/
def spawn (ctx : Setting α) (config : LaunchConfig) : Act α Unit := do
  let session ← read fun s => s.session ctx.session
  let adapter ← lift (ctx.agent.create session config)
  outcome Outside.spawns fun o => { o with spawns := o.spawns.tail }
  update fun w => { w with
    process := some { pid := w.spawned, adapter, config }
    spawned := w.spawned + 1
    outputs := w.outputs ++ [.spawned w.spawned] }

end Act

end LatteWork
