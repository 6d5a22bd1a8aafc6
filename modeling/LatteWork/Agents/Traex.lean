import LatteWork.Agents.Messages
import LatteWork.Lib.Assoc
import LatteWork.Lib.Program

/-!
# Traex

The adapter of Traex's app server: numbered JSON-RPC requests of the server, and the notifications
and requests of one native thread. A turn is admitted by the answer to its start or by the
notification of it, whichever comes first.
-/

namespace LatteWork

namespace Traex

inductive Phase where
  | fresh | initializing | opening | ready | starting | running
  deriving DecidableEq, Repr, Inhabited

inductive Method where
  | initializing | configRead | threadStart | threadResume | threadNameSet
  | turnStart | turnSteer | turnInterrupt
  deriving DecidableEq, Repr, Inhabited

def Method.asStr : Method → String
  | initializing => "initialize"
  | configRead => "config/read"
  | threadStart => "thread/start"
  | threadResume => "thread/resume"
  | threadNameSet => "thread/name/set"
  | turnStart => "turn/start"
  | turnSteer => "turn/steer"
  | turnInterrupt => "turn/interrupt"

structure PendingRequest where
  method : Method
  interruptTurn : Option String := none
  queuedInput : Option (String × String) := none
  deriving DecidableEq, Repr, Inhabited

structure BackgroundCommand where
  turn : String
  process : Option String
  deriving DecidableEq, Repr, Inhabited

inductive ApprovalMethod where
  | commandExecution | fileChange | permissions
  deriving DecidableEq, Repr, Inhabited

def ApprovalMethod.ofStr? : String → Option ApprovalMethod
  | "item/commandExecution/requestApproval" => some commandExecution
  | "item/fileChange/requestApproval" => some fileChange
  | "item/permissions/requestApproval" => some permissions
  | _ => none

def ApprovalMethod.tool : ApprovalMethod → String
  | commandExecution => "Bash"
  | fileChange => "FileChange"
  | permissions => "Permissions"

end Traex

/-- `Traex`. A pending request is under its number, the `N` of its id `latte-N`; an approval is
under the text of its native id, with that id. -/
structure Traex where
  phase : Traex.Phase := .fresh
  discovering : Bool := false
  cwd : String := ""
  resume : Option String := none
  thread : Option String := none
  turn : Option String := none
  completedTurn : Option String := none
  completedSuccess : Bool := false
  steered : List String := []
  earlyCompletions : List (String × Json) := []
  title : Option String := none
  pendingPrompt : Option String := none
  platformInstructions : String := ""
  nativeDeveloperInstructions : Option String := none
  config : Option LaunchConfig := none
  modelProvider : Option String := none
  counter : ℕ := 0
  pending : List (ℕ × Traex.PendingRequest) := []
  approvals : List (String × Traex.ApprovalMethod × Json) := []
  streamed : List String := []
  tools : List String := []
  backgroundCommands : List (String × Traex.BackgroundCommand) := []
  children : List String := []
  interruptRequested : Bool := false
  rename : Option String := none
  deriving Inhabited

namespace Traex

open Prog Assoc

/-- What the adapter does: it answers actions or fails, and is left in a state either way. -/
abbrev Step (β : Type) := Prog Traex String β

/-- `field`. -/
def field (value : Json) (key : String) : Except String String :=
  Fallible.orError ("Traex 缺少有效的 " ++ key)
    ((value.index key).str?.filter fun s => s ≠ "" ∧ s.utf8ByteSize ≤ 1024)

/-- `command_process`. -/
def commandProcess (item : Json) : Option String :=
  let native := match (item.index "rawOutput").index "process_id" with
    | .str id => some id
    | value => value.u64?.map toString
  ((item.index "processId").str?.or native).filter fun s => s ≠ "" ∧ s.utf8ByteSize ≤ 1024

/-- The id of the request with a number. -/
def frameId (number : ℕ) : String := "latte-" ++ toString number

/-- `request`: the number is fresh, so the insertion replaces nothing. -/
def request (method : Method) (params : Json) : Step Action := do
  let a ← current
  bailIf (32 ≤ a.pending.length) "Traex 待处理控制请求超出限制"
  bailIf (2 ^ 64 ≤ a.counter + 1) "Traex 请求编号超出限制"
  update fun a => { a with
    counter := a.counter + 1
    pending := put (a.counter + 1)
      { method, interruptTurn := if method = .turnInterrupt then a.turn else none } a.pending }
  pure (.write (.obj [("id", .str (frameId (a.counter + 1))), ("method", .str method.asStr),
    ("params", params)]))

/-- `initialize`. -/
def initializeServer : Step (List Action) := do
  update fun a => { a with phase := .initializing }
  let action ← request .initializing (.obj [("clientInfo",
    .obj [("name", .str "latte-work"), ("version", .str "0.1.0")])])
  pure [action]

def textInput (prompt : String) : Json :=
  .arr [.obj [("type", .str "text"), ("text", .str prompt)]]

/-- The handed-off requests that were accepted or are not answered yet. -/
def outstanding (a : Traex) : List String :=
  a.steered ++ a.pending.filterMap fun p => p.2.queuedInput.map (·.1)

/-- `steer`. -/
def steer (requestId prompt : String) : Step (List Action) := do
  let a ← current
  bailIf (a.phase ≠ .running ∨ a.turn = none) "Traex 正在准备本轮任务，消息保留在队列，请稍后再发送"
  bailIf (startsCommand prompt) "Traex 尚不支持原生命令，消息保留在队列"
  bailIf (16 ≤ a.steered.length + (a.pending.filter (·.2.queuedInput.isSome)).length)
    "Traex 待处理消息已达上限，消息保留在队列"
  let turn := a.turn.getD ""
  let action ← request .turnSteer (.obj [("threadId", .opt .str a.thread),
    ("expectedTurnId", .str turn), ("input", textInput prompt)])
  update fun a => { a with pending := a.pending.map fun p =>
    if p.1 = a.counter then (p.1, { p.2 with queuedInput := some (requestId, turn) }) else p }
  pure [action]

/-- The model a request names. -/
def modelOf (config : LaunchConfig) : Option String :=
  (config.traexModel.map (·.model)).or config.model

/-- `start`. -/
def start (prompt : String) : Step (List Action) := do
  bailIf (startsCommand prompt) "Traex 尚不支持原生命令，请使用普通消息"
  update fun a => { a with phase := .starting, earlyCompletions := [], streamed := [], tools := [] }
  let a ← current
  let config ← orError "Traex 启动配置缺失" a.config
  let action ← request .turnStart (.obj ([("threadId", .opt .str a.thread),
    ("input", textInput prompt), ("model", .opt .str (modelOf config)),
    ("effort", .opt (.str ∘ Effort.asStr) config.effort),
    ("modelProvider", .opt .str a.modelProvider)] ++
    Json.optField "modelBackendVariant" (fun m => .str m.backendVariant) config.traexModel))
  pure [action]

/-- `interrupt`. -/
def interrupt : Step (List Action) := do
  let a ← current
  match a.turn with
  | some turn =>
    let action ← request .turnInterrupt (.obj [("threadId", .opt .str a.thread),
      ("turnId", .str turn)])
    pure [action]
  | none =>
    if a.phase = .starting then do
      update fun a => { a with interruptRequested := true }
      pure []
    else pure [.interrupted]

/-- The permission fields of a thread. -/
def permissionFields : Option String → Except String (List (String × Json))
  | some "default" => .ok [("approvalPolicy", .str "on-request"), ("sandbox", .str "workspace-write"),
      ("approvalsReviewer", .str "user")]
  | some "bypass_permissions" => .ok [("approvalPolicy", .str "never"),
      ("sandbox", .str "danger-full-access"), ("approvalsReviewer", .str "user")]
  | none => .ok []
  | some _ => .error "Traex 不支持所选权限模式"

/-- `open_thread`. -/
def openThread : Step (List Action) := do
  let a ← current
  let config ← orError "Traex 启动配置缺失" a.config
  let instructions :=
    if a.platformInstructions = "" then []
    else [("developerInstructions", .str ("\n\n".intercalate
      ([a.nativeDeveloperInstructions.getD "", a.platformInstructions].filter (· ≠ ""))))]
  let permissions ← lift (permissionFields config.permissionMode)
  let params := [("cwd", .str a.cwd), ("model", .opt .str (modelOf config)),
    ("modelProvider", .opt .str a.modelProvider)] ++ instructions ++
    Json.optField "config"
      (fun m => .obj [("model_backend_variant", .str m.backendVariant)]) config.traexModel ++ permissions
  let action ← request (if a.resume.isSome then .threadResume else .threadStart)
    (.obj (params ++ Json.optField "threadId" .str a.resume))
  pure [action]

/-! ## Items of a turn -/

/-- The name a tool call is shown under, none for an item that is no tool call. -/
def toolName (item : Json) : String → Except String (Option String)
  | "commandExecution" => .ok (some "Bash")
  | "fileChange" => .ok (some "FileChange")
  | "mcpToolCall" => .ok (some ("mcp__" ++ (item.index "server").str?.getD "unknown" ++ "__" ++
      (item.index "tool").str?.getD "unknown"))
  | "dynamicToolCall" => do return some (← field item "tool")
  | "webSearch" => .ok (some "WebSearch")
  | "collabAgentToolCall" => .ok (some "Agent")
  | _ => .ok none

def toolInput (kind : String) (item : Json) : Json :=
  if kind = "commandExecution" then
    .obj [("command", item.index "command"), ("cwd", item.index "cwd")]
  else if kind = "mcpToolCall" ∨ kind = "dynamicToolCall" then item.index "arguments"
  else item

def addChild (child : String) : Step Unit := do
  let a ← current
  bailIf (512 ≤ a.children.length ∧ child ∉ a.children) "Traex 子智能体数量超出限制"
  update fun a => { a with children := a.children.insert child }

/-- The children an agent tool tells of: only an explicit terminal state releases one. -/
def trackChildren (item : Json) : Step Unit := do
  forEach (fun child => do
    let child ← orError "Traex 子智能体 ID 无效" child.str?
    addChild child) (item.index "receiverThreadIds").items
  forEach (fun p =>
    if (p.2.index "status").str? ∈
        [some "completed", some "errored", some "shutdown", some "notFound"] then
      update fun a => { a with children := a.children.filter (· ≠ p.1) }
    else addChild p.1) ((item.index "agentsStates").obj?.getD [])

def agentMessage (item : Json) (id : String) (completed : Bool) : Step (List Action) := do
  let a ← current
  if completed ∧ id ∉ a.streamed then do
    let text ← orError "Traex 回复无效" (item.index "text").str?
    bailIf (4096 ≤ a.streamed.length) "Traex 消息数量超出限制"
    update fun a => { a with streamed := a.streamed.insert id }
    pure [.event { event := .text text }]
  else pure []

def toolStarted (item : Json) (kind id name : String) : Step (List Action) := do
  let a ← current
  if id ∉ a.tools ∧ (a.backgroundCommands.lookup id).isNone then do
    bailIf (4096 ≤ a.tools.length) "Traex 工具数量超出限制"
    update fun a => { a with tools := a.tools.insert id }
    pure [.event { event := .tool id name (toolInput kind item) }]
  else pure []

/-- A command that goes on after its tool call: the call has no result yet. -/
def backgrounded (item : Json) (id : String) : Step (List Action) := do
  let a ← current
  let known := a.backgroundCommands.lookup id
  bailIf (512 ≤ a.backgroundCommands.length ∧ known.isNone) "Traex 后台命令数量超出限制"
  let process := (commandProcess item).or (known.bind (·.process))
  let turn ← orError "Traex 后台命令缺少轮次身份" ((known.map (·.turn)).or a.turn)
  update fun a => { a with backgroundCommands := put id { turn, process } a.backgroundCommands }
  pure [.event { event := .notice ("命令已转入后台，结果待确认（工具 ID：" ++ id ++ "，进程 ID：" ++
    process.getD "未提供" ++ "）\n" ++ (item.index "aggregatedOutput").str?.getD "") }]

/-- A command ended: its own entry goes, and those of the process that exited. -/
def releaseCommand (item : Json) (id : String) : Step Unit :=
  if (item.index "status").str? ∈ [some "completed", some "failed"] then do
    update fun a => { a with backgroundCommands := drop id a.backgroundCommands }
    when ((commandProcess item).isSome ∧ (item.index "exitCode").i64?.isSome)
      (update fun a => { a with
        backgroundCommands := a.backgroundCommands.filter (·.2.process ≠ commandProcess item) })
  else pure ()

def toolCompleted (item : Json) (kind id : String) : Step (List Action) := do
  let status := (item.index "status").str?
  if kind = "commandExecution" ∧ status = some "backgrounded" then backgrounded item id
  else do
    bailIf (kind ≠ "webSearch" ∧ status ∉ [some "completed", some "failed", some "declined"])
      "Traex 工具完成状态无效"
    let isError := status ∈ [some "failed", some "declined"] ∨
      (item.index "success").bool? = some false ∨ (item.index "exitCode").i64?.any (· ≠ 0)
    let content :=
      if kind = "commandExecution" then item.index "aggregatedOutput"
      else (item.get? "result").getD item
    when (kind = "commandExecution") (releaseCommand item id)
    pure [.event { event := .toolResult id content isError }]

/-- `item`. -/
def item (item : Json) (completed : Bool) : Step (List Action) := do
  let kind ← lift (field item "type")
  let id ← lift (field item "id")
  if kind = "reasoning" then pure [.event { event := .progress .thinking }]
  else if kind = "agentMessage" then agentMessage item id completed
  else do
    let name ← lift (toolName item kind)
    match name with
    | none => pure []
    | some name => do
      when (kind = "collabAgentToolCall") (trackChildren item)
      let started ← toolStarted item kind id name
      if completed then do
        let ended ← toolCompleted item kind id
        pure (started ++ ended)
      else pure started

/-! ## Requests of the agent -/

/-- One question of `questions`, after those with the ids seen. -/
def question (seen : List String) (q : Json) : Except String UserQuestion := do
  Fallible.bailIf ((q.index "isSecret").bool? = some true) "Latte Work 尚不支持 Traex 密文问题"
  let id ← field q "id"
  Fallible.bailIf (id ∈ seen) "Traex 问题 ID 重复"
  let options := (q.index "options").items
  Fallible.bailIf (32 < options.length) "Traex 问题选项超出限制"
  let options ← options.mapM fun o => do
    return { label := ← field o "label", description := (o.index "description").str?.getD "" }
  let text ← Fallible.orError "Traex 问题文本缺失" (q.index "question").str?
  return { id, header := (q.index "header").str?.getD "", text, options,
           multiSelect := (q.index "multiSelect").bool? = some true }

def questionsAfter (seen : List String) : List Json → Except String (List UserQuestion)
  | [] => .ok []
  | q :: rest => do
    let first ← question seen q
    return first :: (← questionsAfter (first.id :: seen) rest)

/-- `questions`. -/
def questions (params : Json) : Except String (List UserQuestion) := do
  let source ← Fallible.orError "Traex 问题数量无效"
    ((params.index "questions").arr?.filter fun q => q ≠ [] ∧ q.length ≤ 8)
  questionsAfter [] source

def errorFrame (id : Json) (code message : String) : Json :=
  .obj [("id", id), ("error", .obj [("code", .num code), ("message", .str message)])]

/-- The input of an approval: the request without what names its place. -/
def approvalInput (params : Json) : Json :=
  match params with
  | .obj fields => .obj (fields.filter (·.1 ∉ ["threadId", "turnId", "itemId", "startedAtMs"]))
  | v => v

/-- `native_request`. -/
def nativeRequest (message : Json) : Step (List Action) := do
  let a ← current
  let params := message.index "params"
  let method := (message.index "method").str?.getD ""
  if (params.index "threadId").str? ≠ a.thread ∨ (params.index "turnId").str? ≠ a.turn ∨
      a.phase ≠ .running then
    pure [.write (errorFrame (message.index "id") "-32602"
      "Request does not belong to the active Latte turn")]
  else do
    let id := (message.index "id").render
    let toolUseId := (params.index "itemId").str?
    match ApprovalMethod.ofStr? method with
    | some approval => do
      bailIf (32 ≤ a.approvals.length ∨ (a.approvals.lookup id).isSome)
        "Traex 审批数量超出限制或原生 ID 重复"
      update fun a => { a with approvals := put id (approval, message.index "id") a.approvals }
      pure [.approval id toolUseId approval.tool (approvalInput params)]
    | none =>
      if method = "item/tool/requestUserInput" then do
        let questions ← lift (questions params)
        pure [.question id toolUseId (.obj [("id", message.index "id"), ("method", .str method),
          ("params", params)]) questions]
      else pure [.write (errorFrame (message.index "id") "-32601"
        "Unsupported Traex request in Latte Work")]

/-! ## Notifications -/

/-- A message of another thread does nothing. -/
def ofThread (message : Json) (m : Step (List Action)) : Step (List Action) := do
  let a ← current
  if ((message.index "params").index "threadId").str? ≠ a.thread then pure [] else m

/-- A `turn/completed` of the running turn. -/
def turnCompleted (turn : Json) : Step (List Action) := do
  let status ← lift (field turn "status")
  bailIf (status ∉ ["completed", "failed", "interrupted"]) "Traex 返回非终态完成消息"
  let failed := status ≠ "completed"
  update fun a => { a with
    phase := .ready, approvals := [], completedTurn := a.turn, turn := none
    completedSuccess := !failed, streamed := [], tools := [] }
  let message :=
    if failed then some (((turn.index "error").index "message").str?.getD
      (if status = "interrupted" then "Traex 已中断" else "Traex 执行失败"))
    else none
  let a ← current
  let consumed := if ¬failed ∧ a.steered ≠ [] then [.inputsConsumed a.steered] else []
  update fun a => { a with steered := [] }
  pure (consumed ++ [.finished failed message])

/-- What a notification of the running turn does. -/
def turnNotification (method : String) (params : Json) : Step (List Action) := do
  if method = "item/agentMessage/delta" then do
    let id ← lift (field params "itemId")
    let a ← current
    bailIf (4096 ≤ a.streamed.length ∧ id ∉ a.streamed) "Traex 消息数量超出限制"
    update fun a => { a with streamed := a.streamed.insert id }
    let text ← orError "Traex 文本增量无效" (params.index "delta").str?
    pure [.event { event := .progress .replying }, .event { event := .text text }]
  else if method = "item/reasoning/summaryTextDelta" ∨ method = "item/reasoning/textDelta" then
    pure [.event { event := .progress .thinking }]
  else if method = "item/started" ∨ method = "item/completed" then
    item (params.index "item") (method = "item/completed")
  else if method = "turn/completed" then turnCompleted (params.index "turn")
  else if method = "error" ∧ (params.index "willRetry").bool? ≠ some true then
    fail ("Traex：" ++ ((params.index "error").index "message").str?.getD "原生执行失败")
  else pure []

/-- The turn a notification is about. -/
def notifiedTurn (method : String) (params : Json) : Option String :=
  if method = "turn/completed" then ((params.index "turn").index "id").str?
  else (params.index "turnId").str?

/-- The command, seen before to go on in the background, that a completed item is about. -/
def observedCommand (a : Traex) (method : String) (item : Json) : Option BackgroundCommand :=
  if method = "item/completed" ∧ (item.index "type").str? = some "commandExecution" then
    (item.index "id").str?.bind fun id => a.backgroundCommands.lookup id
  else none

/-- The part of `notification` after the admission of a turn. -/
def afterAdmission (message : Json) : Step (List Action) := do
  let params := message.index "params"
  let method := (message.index "method").str?.getD ""
  let a ← current
  match a.observedCommand method (params.index "item") with
  | some command =>
    if (params.index "turnId").str? = some command.turn then item (params.index "item") true
    else pure []
  | none =>
    if (a.phase ≠ .running ∧ a.phase ≠ .starting) ∨ notifiedTurn method params = none ∨
        notifiedTurn method params ≠ a.turn then pure []
    else turnNotification method params

/-- The completion that came before the turn was admitted. -/
def replay : Option Json → Step (List Action)
  | some completion => ofThread completion (afterAdmission completion)
  | none => pure []

/-- `admit_turn`. The buffered completion is a `turn/completed`, and the phase is running: of
`notification` it meets only the check of the thread and what comes after the admission. -/
def admitTurn (turn : Json) : Step (List Action) := do
  let id ← lift (field turn "id")
  update fun a => { a with turn := some id, phase := .running }
  let a ← current
  let thread ← orError "Traex 会话 ID 缺失" a.thread
  let completion := a.earlyCompletions.lookup id
  update fun a => { a with earlyCompletions := [] }
  let replayed ← replay completion
  let a ← current
  update fun a => { a with interruptRequested := false }
  let interrupted ← (if a.interruptRequested then interrupt else pure [])
  pure ([.nativeSession thread] ++ replayed ++ interrupted)

/-- A completion that comes before its turn is admitted. -/
def keepCompletion (message : Json) : Step (List Action) := do
  let a ← current
  let id ← lift (field ((message.index "params").index "turn") "id")
  bailIf (32 ≤ a.earlyCompletions.length ∧ (a.earlyCompletions.lookup id).isNone)
    "Traex 提前完成消息超出限制"
  update fun a => { a with earlyCompletions := put id message a.earlyCompletions }
  pure []

/-- `notification`. -/
def notification (message : Json) : Step (List Action) :=
  ofThread message do
    let params := message.index "params"
    let method := (message.index "method").str?.getD ""
    let a ← current
    if method = "thread/name/updated" then
      pure (((params.index "threadName").str?.filter (!blank ·)).toList.map Action.nativeName)
    else if method = "turn/started" ∧ a.phase = .starting then admitTurn (params.index "turn")
    else if method = "turn/completed" ∧ a.phase = .starting ∧ a.turn = none then
      keepCompletion message
    else afterAdmission message

/-! ## Answers -/

/-- The text of an error answer. -/
def errorText (error : Json) (otherwise : String) : String :=
  (error.index "message").str?.getD otherwise

/-- An error answer. -/
def refused (request : PendingRequest) (error : Json) : Step (List Action) := do
  match request.queuedInput with
  | some (requestId, _) =>
    pure [.inputRejected requestId ("Traex 未接收消息：" ++ errorText error "原生发送请求被拒绝")]
  | none => do
    let a ← current
    -- a completion that won the race with the interrupt makes its error obsolete
    if request.method = .turnInterrupt ∧ request.interruptTurn.isSome ∧
        request.interruptTurn = a.completedTurn then pure [.interrupted]
    else if request.method = .threadNameSet then do
      update fun a => { a with rename := none }
      pure [.titleRenamed (.error (errorText error "Traex 拒绝修改标题"))]
    else fail ("Traex " ++ request.method.asStr ++ " 失败：" ++ errorText error "原生请求失败")

/-- The answer to a hand-off into the turn `expected`. -/
def steerAnswered (requestId expected : String) (result : Json) : Step (List Action) := do
  bailIf ((result.index "turnId").str? ≠ some expected) "Traex 消息交付返回了不同的 turn，处理状态待确认"
  let a ← current
  if a.turn = some expected ∧ a.phase = .running then do
    update fun a => { a with steered := a.steered.insert requestId }
    pure []
  else if a.completedTurn = some expected then
    pure (if a.completedSuccess then [.inputsConsumed [requestId]] else [])
  else fail "Traex 消息交付所属 turn 已变化，处理状态待确认"

def readConfig : Step (List Action) := do
  let a ← current
  let action ← request .configRead (.obj [("includeLayers", .bool false), ("cwd", .str a.cwd)])
  pure [action]

/-- The answer to `initialize`. -/
def initialized : Step (List Action) := do
  let a ← current
  if a.discovering then pure [.commands []]
  else do
    bailIf (a.phase ≠ .initializing) "Traex 初始化状态不一致"
    update fun a => { a with phase := .opening }
    let next ← (if a.config.any (·.provider.isSome) ∧ a.platformInstructions = "" then openThread
      else readConfig)
    pure (.write (.obj [("method", .str "initialized")]) :: next)

/-- The answer to `config/read`. -/
def configRead (result : Json) : Step (List Action) := do
  let config := result.index "config"
  let instructions := config.get? "developer_instructions"
  update fun a => { a with
    nativeDeveloperInstructions := (config.index "developer_instructions").str?
    platformInstructions :=
      if instructions.any fun v => v.isNull || v.str?.isSome then a.platformInstructions else "" }
  let a ← current
  when (a.config.any (·.provider.isNone)) do
    let provider ← orError "Traex 未返回原生 Provider"
      ((config.index "model_provider").str?.filter (· ≠ ""))
    update fun a => { a with modelProvider := some provider }
  let model := (config.index "model").str?
  update fun a => { a with config := a.config.map fun c =>
    if c.model.isNone then { c with
      model, traexModel := model.map fun model =>
        { model, backendVariant := (config.index "model_backend_variant").str?.getD "standard" } }
    else c }
  openThread

/-- The manual title of a new session is set once its thread is open. -/
def nameThread (thread : String) : Option String → Step (List Action)
  | some title => do
    update fun a => { a with rename := some title }
    let action ← request .threadNameSet (.obj [("threadId", .str thread), ("name", .str title)])
    pure [action]
  | none => pure []

def startPending : Option String → Step (List Action)
  | some prompt => start prompt
  | none => pure []

/-- The answer to `thread/start` or `thread/resume`. -/
def threadOpened (result : Json) : Step (List Action) := do
  let thread ← lift (field (result.index "thread") "id")
  let a ← current
  bailIf (a.resume.any (· ≠ thread)) "Traex 恢复了不同的会话"
  update fun a => { a with thread := some thread, phase := .ready, title := none }
  let renamed ← nameThread thread a.title
  update fun a => { a with pendingPrompt := none }
  let started ← startPending a.pendingPrompt
  pure ([.ready] ++ renamed ++ started)

/-- An answer of a request that handed no input over. -/
def answered (method : Method) (result : Json) : Step (List Action) := do
  match method with
  | .initializing => initialized
  | .configRead => configRead result
  | .threadStart | .threadResume => threadOpened result
  | .turnStart => do
    let a ← current
    if a.phase = .starting then admitTurn (result.index "turn") else pure []
  | .turnInterrupt => pure [.interrupted]
  | .threadNameSet => do
    let a ← current
    update fun a => { a with rename := none }
    pure (a.rename.toList.map fun title => .titleRenamed (.ok title))
  | .turnSteer => fail "Traex 返回意外控制响应"

/-- The pending request a message answers. -/
def answeredBy (a : Traex) (message : Json) : Option (ℕ × PendingRequest) :=
  (message.index "id").str?.bind fun id => a.pending.find? fun p => frameId p.1 = id

/-- `response`. -/
def response (message : Json) : Step (List Action) := do
  let a ← current
  match a.answeredBy message with
  | none => pure []
  | some (number, request) => do
    update fun a => { a with pending := drop number a.pending }
    match message.get? "error" with
    | some error => refused request error
    | none => do
      let result ← orError "Traex 控制响应缺少 result" (message.get? "result")
      match request.queuedInput with
      | some (requestId, expected) => steerAnswered requestId expected result
      | none => answered request.method result

/-! ## The adapter -/

/-- The values one answer of a question stands for. -/
def answerValues (questions : List UserQuestion) (answer : QuestionAnswer) :
    Except String (String × List String) := do
  let question ← Fallible.orError "Traex 问题不匹配" (questions.find? (·.id = answer.questionId))
  let values ← answer.optionIndices.mapM fun index =>
    Fallible.orError "Traex 问题选项无效" (question.options[index]?.map (·.label))
  return (question.id, values ++ (answer.text.filter (!blank ·)).toList)

def answerFields (questions : List UserQuestion) (answers : List QuestionAnswer) :
    Except String (List (String × Json)) :=
  answers.foldlM (fun fields answer => do
    let (id, values) ← answerValues questions answer
    return put id (.obj [("answers", .arr (values.map .str))]) fields) []

/-- The result of an approval request. -/
def approvalResult (method : ApprovalMethod) (input : Json) (allow : Bool) : Json :=
  match method with
  | .commandExecution | .fileChange =>
    .obj [("decision", .str (if allow then "accept" else "decline"))]
  | .permissions =>
    .obj [("permissions", if allow then input.index "permissions" else .obj []),
      ("scope", .str "turn")]

/-- `advance`. -/
def advance : Input → Step (List Action)
  | .open => do
    let a ← current
    if a.phase = .fresh then initializeServer else fail "Traex 会话状态不支持此操作"
  | .discoverCommands => do
    update fun a => { a with discovering := true }
    initializeServer
  | .start prompt => do
    let a ← current
    match a.phase with
    | .fresh => do
      bailIf (startsCommand prompt) "Traex 尚不支持原生命令"
      update fun a => { a with pendingPrompt := some prompt }
      initializeServer
    | .ready => start prompt
    | _ => fail "Traex 当前不能开始新一轮任务"
  | .interrupt => interrupt
  | .queue requestId prompt _ => steer requestId prompt
  | .renameTitle _ title => do
    let a ← current
    bailIf ((a.phase ≠ .ready ∧ a.phase ≠ .running) ∨ a.rename.isSome) "Traex 会话尚未就绪或标题修改待确认"
    update fun a => { a with rename := some title }
    let action ← request .threadNameSet (.obj [("threadId", .opt .str a.thread),
      ("name", .str title)])
    pure [action]
  | .approval id input allow => do
    let a ← current
    let (method, native) ← orError "Traex 审批已过期" (a.approvals.lookup id)
    update fun a => { a with approvals := drop id a.approvals }
    pure [.write (.obj [("id", native), ("result", approvalResult method input allow)])]
  | .questionAnswer _ input questions answers => do
    let fields ← lift (answerFields questions (answers.getD []))
    pure [.write (.obj [("id", input.index "id"), ("result", .obj [("answers", .obj fields)])])]
  | .message line => do
    let message ← orError "Traex 返回无效 JSON" line
    if (message.get? "method").isSome then
      if (message.get? "id").isSome then nativeRequest message else notification message
    else response message

def hasBackgroundWork (a : Traex) : Bool := !a.children.isEmpty || !a.backgroundCommands.isEmpty

def canReconfigure (a : Traex) : Bool :=
  a.phase = .ready && !a.hasBackgroundWork && a.pending.isEmpty

/-- `can_start_turn`: live children do not hold the next turn back. -/
def canStartTurn (a : Traex) : Bool := a.phase = .ready && a.pending.isEmpty

/-- What the callers of an adapter promise: the commands are asked of a fresh one, a turn is started
on a fresh one or on one that can start a turn, and a request is not handed over while it is
outstanding. -/
def serves (a : Traex) : Input → Bool
  | .discoverCommands => a.phase = .fresh
  | .start _ => a.phase = .fresh || a.canStartTurn
  | .queue requestId .. => requestId ∉ a.outstanding
  | _ => true

/-- `set_session_title` and `command`. `instructions` is what `platform_instructions` reads, and
`uuid` the fresh one of the provider's id. -/
def create (instructions uuid cwd : String) (session : Session) (config : LaunchConfig) :
    Except String Traex := do
  Fallible.bailIf (config.permissionMode ∉ [none, some "default", some "bypass_permissions"])
    "Traex 不支持所选权限模式"
  return {
    title := if session.nativeId.isSome ∨ ¬session.customTitle then none else some session.title
    platformInstructions := instructions, cwd, resume := session.nativeId
    modelProvider := config.provider.map fun _ => "latte-work-" ++ uuid
    config := some { config with
      model := config.model.or (config.provider.map (·.metadata.model)) } }

def adapter (instructions uuid cwd : String) : AgentAdapter Traex where
  create := create instructions uuid cwd
  canReconfigure := canReconfigure
  canStartTurn := canStartTurn
  hasBackgroundWork := hasBackgroundWork
  advance a input := advance input a

end Traex

end LatteWork
