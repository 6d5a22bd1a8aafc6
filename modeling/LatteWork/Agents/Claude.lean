import LatteWork.Agents.Messages
import LatteWork.Lib.Assoc
import LatteWork.Lib.Program
import LatteWork.Store.History

/-!
# Claude

The adapter of the Claude Code CLI: its stream of JSON messages and its control requests. A turn
starts with a prompt of the user, or by itself when work in the background goes on after one; it
ends with a result. Inputs handed over during a turn are settled by the result that names them.
-/

namespace LatteWork

namespace Claude

inductive Phase where
  | idle
  | initializing (prompt : String)
  | opening | discovering | running | betweenTurns | finished
  deriving DecidableEq, Repr, Inhabited

/-- The counters of one message or of the turn so far. -/
structure Totals where
  input : ℕ := 0
  cacheRead : ℕ := 0
  cacheWrite : ℕ := 0
  output : ℕ := 0
  deriving DecidableEq, Repr, Inhabited

end Claude

/-- `Claude`. `queuedInputs` has the requests handed over under the uuids they were sent with. -/
structure Claude where
  titleDescription : Option String := none
  titleAttempted : Bool := false
  generatingTitleFor : Option String := none
  nativeNamed : Bool := false
  nativeSessionId : Option String := none
  «renaming» : Option (String × String) := none
  renameResultTitle : Option String := none
  streamed : Bool := false
  streamedChildren : List String := []
  childStreamOverflow : Bool := false
  emittedText : Bool := false
  context : Option ContextUsage := none
  accountingModel : Option String := none
  progress : Option ExecutionPhase := none
  streamModel : Option String := none
  streamUsage : Json := .null
  liveTotals : Claude.Totals := {}
  liveSteps : ℕ := 0
  phase : Claude.Phase := .idle
  commands : List String := []
  skills : List String := []
  requestedSkillCommands : List String := []
  pendingSkillCommand : Option String := none
  skillLoads : List String := []
  tasks : List String := []
  agentTasks : List (String × Option String) := []
  foregroundAgents : List String := []
  sessionState : Option String := none
  delegated : Bool := false
  lastResult : Option String := none
  queuedInputs : List (String × String) := []
  consumedInputs : List String := []
  deriving Inhabited

namespace Claude

open Prog Assoc

/-- What the adapter does: it answers actions or fails, and is left in a state either way. -/
abbrev Step (β : Type) := Prog Claude String β

def kind (message : Json) : String := (message.index "type").str?.getD ""

def subtype (message : Json) : String := (message.index "subtype").str?.getD ""

/-- `bounded_field`. -/
def boundedField (value : Json) (key : String) (limit : ℕ) : Option String :=
  ((value.index key).str?.filter (· ≠ "")).map (takeChars limit)

/-- `native_task_id`. -/
def nativeTaskId (message : Json) : Except String String :=
  Fallible.orError "无效的 Claude 后台任务标识"
    ((message.index "task_id").str?.filter fun id => id ≠ "" ∧ id.utf8ByteSize ≤ 256)

/-- `count`. -/
def count (value : Json) (key : String) : Option ℕ :=
  (value.index key).u64?.filter (· ≤ 9007199254740991)

/-- `model_key`: the name after the last `/`, before the first `[`. -/
def modelKey (model : String) : String :=
  String.ofList (((model.toList.reverse.takeWhile (· ≠ '/')).reverse).takeWhile (· ≠ '['))

/-- `model_usage`. -/
def modelUsage (models : Json) (model : String) : Option Json :=
  (models.get? model).or
    (match (models.obj?.getD []).filter fun p => modelKey p.1 = modelKey model with
    | [(_, usage)] => some usage
    | _ => none)

/-- The name a prompt calls a command by. -/
def commandName (prompt : String) : Option String :=
  match prompt.toList.dropWhile isWhitespace with
  | '/' :: rest =>
    (some (String.ofList ((rest.dropWhile isWhitespace).takeWhile (!isWhitespace ·)))).filter (· ≠ "")
  | _ => none

example : commandName " /review the diff" = some "review" ∧ modelKey "gw/opus[1m]" = "opus" := by decide

/-! ## Content -/

/-- `subagent_action`. -/
def subagentUpdate (id : String) (toolUseId : Option String) (fields : Json)
    (status : Option SubagentStatus) : SubagentUpdate where
  id := id
  toolUseId := toolUseId
  title := (boundedField fields "description" 512).or (boundedField fields "title" 512)
  agentType := ((boundedField fields "subagent_type" 256).map trim).filter (· ≠ "")
  status := status
  summary := boundedField fields "summary" 2048
  lastTool := boundedField fields "last_tool_name" 256

def subagentAction (id : String) (toolUseId : Option String) (fields : Json)
    (status : Option SubagentStatus) : Action :=
  .event { event := .subagent (subagentUpdate id toolUseId fields status) }

/-- What a tool result in a message is shown as. -/
def toolResult (id : String) (block : Json) : EventKind :=
  .toolResult id (toolContent (block.index "content")) ((block.index "is_error").bool?.getD false)

/-- The name a menu shows a command under. -/
def displayName (entry : Json) : Option String :=
  ((["displayName", "display_name", "title"].filterMap fun key => (entry.index key).str?).map
    trim).find? fun v => v ≠ "" ∧ v.length ≤ 80 ∧ ¬v.toList.any Store.isControl

def slashCommand (name : String) (entry : Json) : AgentSlashCommand where
  name := name
  displayName := displayName entry
  description := takeChars 2048 ((entry.index "description").str?.getD "")
  argumentHint := takeChars 512 ((entry.index "argumentHint").str?.getD "")
  uiAction := if name ∈ ["agents", "tasks", "list-agents"] then some .subagents else none

/-- The loop of `parse_commands`, with the names seen so far. -/
def commandsAfter (seen : List String) : List Json → Except String (List AgentSlashCommand)
  | [] => .ok []
  | entry :: rest => do
    let name ← Fallible.orError "无效的 Agent 命令名称" (entry.index "name").str?
    Fallible.bailIf (name = "" ∨ 256 < name.utf8ByteSize ∨
      name.toList.any fun c => isWhitespace c || Store.isControl c || c = '/') "无效的 Agent 命令名称"
    if name ∈ seen then commandsAfter seen rest
    else return slashCommand name entry :: (← commandsAfter (name :: seen) rest)

/-- `parse_commands`. -/
def parseCommands (value : Json) : Except String (List AgentSlashCommand) := do
  let entries ← Fallible.orError "此 Claude CLI 未返回命令列表，请更新 CLI 后重试" value.arr?
  Fallible.bailIf (2000 < entries.length) "Agent 命令列表超出限制"
  commandsAfter [] entries

/-- One option of `parse_questions`. -/
def questionOption (option : Json) : Except String QuestionOption := do
  let label ← Fallible.orError "选项标签无效"
    ((option.index "label").str?.filter fun s => ¬blank s ∧ s.utf8ByteSize ≤ 1024)
  let description := (option.index "description").str?.getD ""
  Fallible.bailIf (16 * 1024 < description.utf8ByteSize) "选项说明过长"
  return { label, description }

/-- The loop of `parse_questions`, with the texts seen so far. -/
def questionsAfter (seen : List String) : List Json → Except String (List UserQuestion)
  | [] => .ok []
  | row :: rest => do
    let text ← Fallible.orError "问题文本无效"
      ((row.index "question").str?.filter fun s => ¬blank s ∧ s.utf8ByteSize ≤ 32 * 1024)
    Fallible.bailIf (text ∈ seen) "问题文本重复"
    let header := (row.index "header").str?.getD ""
    Fallible.bailIf (256 < header.utf8ByteSize) "问题标题过长"
    let options ← Fallible.orError "问题选项无效"
      ((row.index "options").arr?.filter fun a => a ≠ [] ∧ a.length ≤ 8)
    let options ← options.mapM questionOption
    let more ← questionsAfter (text :: seen) rest
    return { id := "q" ++ toString seen.length, header, text, options,
             multiSelect := (row.index "multiSelect").bool?.getD false } :: more

/-- `parse_questions`. -/
def parseQuestions (input : Json) : Except String (List UserQuestion) := do
  let rows ← Fallible.orError "问题参数缺失" (input.index "questions").arr?
  Fallible.bailIf (rows = [] ∨ 4 < rows.length) "问题数量无效"
  questionsAfter [] rows

/-! ## Frames -/

def controlRequest (id : String) (request : List (String × Json)) : Json :=
  .obj [("type", .str "control_request"), ("request_id", .str id), ("request", .obj request)]

/-- `initialize`. -/
def initializeFrame : Json := controlRequest "latte-init" [("subtype", .str "initialize")]

/-- `prompt`. -/
def prompt (text : String) : List (String × Json) :=
  [("type", .str "user"), ("message", .obj [("role", .str "user"), ("content", .str text)]),
    ("parent_tool_use_id", .null), ("session_id", .str "")]

/-- The answer to a control request of the agent. -/
def controlResponse (id : String) (response : Json) : Json :=
  .obj [("type", .str "control_response"), ("response",
    .obj [("subtype", .str "success"), ("request_id", .str id), ("response", response)])]

def denial (message : String) : Json :=
  .obj [("behavior", .str "deny"), ("message", .str message)]

/-- `approval`. -/
def approval (id : String) (input : Json) (allow : Bool) : Json :=
  controlResponse id
    (if allow then .obj [("behavior", .str "allow"), ("updatedInput", input)]
    else denial "用户拒绝了本次工具调用")

/-! ## The turn -/

def hasBackgroundWork (a : Claude) : Bool := !a.tasks.isEmpty || !a.foregroundAgents.isEmpty

/-- `check_command`. -/
def checkCommand (prompt : String) : Step Unit := do
  let a ← current
  bailIf ((commandName prompt).any (· ∉ a.commands))
    ("当前 Claude 不支持命令 /" ++ (commandName prompt).getD "" ++ "；输入 / 查看可用命令")

/-- `remember_title_description`. -/
def rememberTitleDescription (prompt : String) (a : Claude) : Claude :=
  if a.titleDescription.isNone ∧ ¬a.titleAttempted ∧ ¬blank prompt ∧ ¬startsCommand prompt then
    { a with titleDescription := some (takeChars 1024 prompt) }
  else a

/-- `remember_skill_command`. -/
def rememberSkillCommand (prompt : String) (a : Claude) : Claude :=
  if a.requestedSkillCommands.length < 64 ∧ (commandName prompt).any (·.utf8ByteSize ≤ 256) then
    { a with requestedSkillCommands :=
        a.requestedSkillCommands.insert ((commandName prompt).getD "") }
  else a

/-- `reset_turn`. -/
def resetTurn (a : Claude) : Claude :=
  { a with
    childStreamOverflow := a.childStreamOverflow && (a.hasBackgroundWork || !a.streamedChildren.isEmpty)
    streamed := false, pendingSkillCommand := none, requestedSkillCommands := [], skillLoads := []
    emittedText := false, progress := none, streamModel := none, streamUsage := .null
    liveTotals := {}, liveSteps := 0 }

/-- `set_accounting_model`. -/
def setAccountingModel (model : Option String) (a : Claude) : Claude :=
  { a with
    context := if a.accountingModel ≠ model then
        a.context.map fun c => { c with windowTokens := none } else a.context
    accountingModel := model }

/-- `update_context`. -/
def updateContext (model : String) (usage : Json) (a : Claude) : Claude :=
  match count usage "input_tokens" with
  | some input =>
    let used := input + (count usage "cache_read_input_tokens").getD 0 +
      (count usage "cache_creation_input_tokens").getD 0
    if 0 < used then
      { a with context := some {
          model, usedTokens := used
          windowTokens := (a.context.filter (·.model = model)).bind (·.windowTokens) } }
    else a
  | none => a

/-! ## Messages of a child -/

/-- The native agent a tool call started. -/
def agentOf (a : Claude) (tool : String) : Option String :=
  (a.agentTasks.find? (·.2 = some tool)).map (·.1)

/-- Streamed text of a child. One past the limit is not followed, nor any new one after it. -/
def childDelta (event : Json) (parent : String) : Step (List Action) := do
  let a ← current
  match (event.index "delta").index "text" with
  | .str text =>
    if kind event = "content_block_delta" ∧ kind (event.index "delta") = "text_delta" then
      if parent ∉ a.streamedChildren ∧ (512 ≤ a.streamedChildren.length ∨ a.childStreamOverflow) then do
        update fun a => { a with childStreamOverflow := true }
        pure []
      else do
        update fun a => { a with streamedChildren := a.streamedChildren.insert parent }
        pure [.subagentEvent parent { event := .text text }]
    else pure []
  | _ => pure []

/-- A block of a child's message. `known` says that the child is followed, `streamed` that its text
was. -/
def childBlock (native : Option String) (known streamed : Bool) (parent : String) (block : Json) :
    List Action :=
  if kind block = "text" ∧ known ∧ ¬streamed then
    (block.index "text").str?.toList.map fun text => .subagentEvent parent { event := .text text }
  else if kind block = "tool_use" then
    match (block.index "id").str?, (block.index "name").str? with
    | some id, some name =>
      .sourceUsed (parent ++ ":" ++ id) name ::
        if known then
          [subagentAction (native.getD ("tool:" ++ parent)) (some parent)
              (.obj [("last_tool_name", .str name)]) none,
            .subagentEvent parent { event := .tool id name (block.index "input") }]
        else []
    | _, _ => []
  else []

/-- `child_message`. -/
def childMessage (m : Json) (parent : String) : Step (List Action) := do
  let a ← current
  let native := a.agentOf parent
  let known := native.isSome || parent ∈ a.foregroundAgents
  let blocks := ((m.index "message").index "content").items
  if kind m = "stream_event" ∧ known then childDelta (m.index "event") parent
  else if kind m = "assistant" then do
    update fun a => { a with streamedChildren := a.streamedChildren.filter (· ≠ parent) }
    pure (blocks.flatMap (childBlock native known (parent ∈ a.streamedChildren) parent))
  else if kind m = "user" ∧ known then
    pure (blocks.filterMap fun block =>
      if kind block = "tool_result" then
        (block.index "tool_use_id").str?.map fun id => .subagentEvent parent { event := toolResult id block }
      else none)
  else pure []

/-! ## Control answers -/

/-- The inputs a message of the turn names: an attribution of the agent, or the replay of one. -/
def named (m : Json) : List String :=
  if (m.index "parent_tool_use_id").isNull ∧
      (kind m ∈ ["assistant", "stream_event", "result"] ∨
        kind m = "user" ∧ (m.index "isReplay").bool? = some true) then
    ((m.index "user_message_uuids").items.take 64).filterMap Json.str? ++
      (m.index "user_message_uuid").str?.toList ++
      (if kind m = "user" then (m.index "uuid").str?.toList else [])
  else []

/-- The inputs that are outstanding among those a message names. -/
def attributed (m : Json) (a : Claude) : Claude :=
  { a with consumedInputs :=
      (named m).filter (fun uuid => (a.queuedInputs.lookup uuid).isSome) ∪ a.consumedInputs }

/-- A message that shows the agent at work. -/
def shows (m : Json) : Bool :=
  (m.index "parent_tool_use_id").isNull && (kind m = "assistant" || kind m = "stream_event" &&
    kind (m.index "event") ∈ ["message_start", "content_block_start", "content_block_delta"])

/-- A turn that starts by itself. -/
def revive : Step (List Action) := do
  update fun a => { a.resetTurn with phase := .running }
  pure [.turnStarted]

def titleReport (id : String) (response : Json) : Action :=
  if subtype response = "success" then
    match (((response.index "response").index "title").str?.map trim).filter
      (fun title => title ≠ "" ∧ title.length ≤ 200 ∧ ¬title.toList.any Store.isControl) with
    | some title => .generatedTitle id title
    | none => .event { event := .notice "会话自动命名未返回有效标题，保留原名称。" }
  else .event { event := .notice ("会话自动命名未完成，保留原名称：" ++
    (boundedField response "error" 300).getD "当前 Agent 不支持此操作") }

/-- The answer to `generate_session_title`. -/
def titleGenerated (m : Json) : Step (List Action) := do
  let a ← current
  update fun a => { a with generatingTitleFor := none }
  match a.generatingTitleFor with
  | some id =>
    if a.nativeNamed ∨ a.nativeSessionId ≠ some id then pure []
    else pure [titleReport id (m.index "response")]
  | none => pure []

/-- The answer to `rename_session`. -/
def renamed (requested : String) (response : Json) : Step (List Action) := do
  let a ← current
  if subtype response = "success" then do
    update fun a => { a with «renaming» := none, nativeNamed := true, renameResultTitle := none }
    pure [.titleRenamed (.ok (a.renameResultTitle.getD requested))]
  else do
    update fun a => { a with «renaming» := none }
    pure [.titleRenamed (.error ("原生会话标题修改失败：" ++
      (response.index "error").str?.getD "当前 Agent 不支持此操作"))]

/-- `session_title_changed`: a name given in the agent itself. -/
def titleChanged (m : Json) : Step (List Action) := do
  match boundedField m "title" 800 with
  | some title => do
    let a ← current
    update fun a => { a with
      nativeNamed := true
      renameResultTitle := if a.«renaming».isSome then some title else a.renameResultTitle }
    pure (if a.«renaming».isSome then [] else [.nativeName title])
  | none => pure []

def interruptAnswered (m : Json) : Step (List Action) := do
  bailIf (subtype (m.index "response") ≠ "success") "Claude 停止请求失败"
  pure [.interrupted]

/-- The names a catalog of commands has, aliases included. -/
def catalogNames (catalog : Json) : List String :=
  catalog.items.flatMap fun command =>
    (command.index "name").str?.toList ++ (command.index "aliases").items.filterMap Json.str?

/-- The answer to the first `initialize` of a session: the catalog is kept, and a waiting prompt
goes out. -/
def opened (waiting : Option String) (catalog : Json) : Step (List Action) := do
  update fun a => { a with phase := .running }
  when (waiting.any startsCommand) do
    let commands ← lift (parseCommands catalog)
    update fun a => { a with commands := commands.map (·.name) ∪ a.commands }
  update fun a => { a with commands := catalogNames catalog ∪ a.commands }
  match waiting with
  | some text => do
    checkCommand text
    pure [.ready, .write (.obj (prompt text))]
  | none => do
    update fun a => { a with phase := .betweenTurns }
    pure [.ready]

def initAnswered (m : Json) : Step (List Action) := do
  let a ← current
  let response := m.index "response"
  let catalog := (response.index "response").index "commands"
  bailIf (subtype response ≠ "success") ("Claude 初始化失败: " ++ (response.index "error").render)
  match a.phase with
  | .discovering => do
    let commands ← lift (parseCommands catalog)
    update fun a => { a with phase := .finished }
    pure [.commands commands]
  | .initializing text => opened (some text) catalog
  | .opening => opened none catalog
  | _ => pure []

/-! ## Messages of the turn -/

/-- `system`, `init`. -/
def systemInit (m : Json) : Step (List Action) := do
  let names := (((m.index "skills").arr?.filter (·.length ≤ 2000)).getD []).filterMap Json.str?
  update fun a => { a with skills := names.filter (· ∈ a.commands) }
  let id := (m.index "session_id").str?
  update fun a => { a with nativeSessionId := id.or a.nativeSessionId }
  when ((boundedField m "model" 256).isSome)
    (update (setAccountingModel (boundedField m "model" 256)))
  pure (id.toList.map .nativeSession)

/-- Room for one more agent: one whose task is over is forgotten. -/
def makeRoom (id : String) : Step Unit := do
  let a ← current
  when (256 ≤ a.agentTasks.length ∧ (a.agentTasks.lookup id).isNone) do
    let old ← orError "Claude 子智能体数量超出限制" (a.agentTasks.find? (·.1 ∉ a.tasks))
    update fun a => { a with agentTasks := drop old.1 a.agentTasks }

/-- `system`, `task_started`. -/
def taskStarted (m : Json) : Step (List Action) := do
  let id ← lift (nativeTaskId m)
  let a ← current
  bailIf (256 ≤ a.tasks.length ∧ id ∉ a.tasks) "Claude 后台任务数量超出限制"
  update fun a => { a with tasks := a.tasks.insert id }
  let tool := boundedField m "tool_use_id" 256
  if (m.index "task_type").str? = some "local_agent" ∨ tool.any (· ∈ a.foregroundAgents) then do
    update fun a => { a with foregroundAgents := a.foregroundAgents.filter (some · ≠ tool) }
    makeRoom id
    update fun a => { a with agentTasks := put id tool a.agentTasks }
    pure [subagentAction id tool m (some .running)]
  else pure []

def taskStatus : Option String → Option SubagentStatus
  | some "running" | some "pending" => some .running
  | some "paused" => some .paused
  | some "completed" => some .completed
  | some "failed" => some .failed
  | some "stopped" | some "killed" => some .stopped
  | _ => none

/-- `system`, `task_notification`, `task_updated` and `task_progress`. The description of a progress
is what the agent does right now, not its title. -/
def taskChanged (m : Json) : Step (List Action) := do
  let id ← lift (nativeTaskId m)
  let a ← current
  let fields := if subtype m = "task_updated" ∧ (m.index "patch").obj?.isSome then m.index "patch" else m
  let raw := (fields.index "status").str?.or (m.index "status").str?
  when (raw ∈ [some "completed", some "failed", some "stopped", some "killed"])
    (update fun a => { a with tasks := a.tasks.filter (· ≠ id) })
  pure ((a.agentTasks.lookup id).toList.map fun tool =>
    let update := subagentUpdate id tool fields (taskStatus raw)
    let shown := if subtype m = "task_progress" then { update with title := none } else update
    .event { event := .subagent shown })

/-- The context is gone: `compact_boundary` and `conversation_reset`. -/
def forgetContext : Step (List Action) := do
  update fun a => { a with context := none }
  pure [.event { event := .usage none none }]

/-- `control_request`. -/
def nativeRequest (m : Json) : Step (List Action) := do
  let id := (m.index "request_id").str?.getD ""
  let request := m.index "request"
  let input := request.index "input"
  let toolUseId := (request.index "tool_use_id").str?
  if subtype request = "can_use_tool" then do
    bailIf (id = "" ∨ input.obj?.isNone) "无效的 Claude 审批请求"
    if (request.index "tool_name").str? = some "AskUserQuestion" then
      match parseQuestions input with
      | .ok questions => pure [.question id toolUseId input questions]
      | .error _ => pure [.write (controlResponse id
          (denial "Latte Work 无法读取问题参数；请重新提出有效的问题"))]
    else pure [.approval id toolUseId ((request.index "tool_name").str?.getD "Tool") input]
  else pure [.write (.obj [("type", .str "control_response"), ("response",
    .obj [("subtype", .str "error"), ("request_id", .str id),
      ("error", .str "Unsupported control request in Latte Work v0.1")])])]

/-! ## Streamed events -/

def totalsOf (usage : Json) : Totals where
  input := (count usage "input_tokens").getD 0
  cacheRead := (count usage "cache_read_input_tokens").getD 0
  cacheWrite := (count usage "cache_creation_input_tokens").getD 0
  output := (count usage "output_tokens").getD 0

/-- The usage so far, with a message that is still streaming. -/
def liveUsage (a : Claude) : TurnUsage where
  inputTokens := some (a.liveTotals.input + (totalsOf a.streamUsage).input)
  cacheReadTokens := some (a.liveTotals.cacheRead + (totalsOf a.streamUsage).cacheRead)
  cacheWriteTokens := some (a.liveTotals.cacheWrite + (totalsOf a.streamUsage).cacheWrite)
  outputTokens := (count a.streamUsage "output_tokens").map (a.liveTotals.output + ·)
  modelTimeMs := none
  steps := some (a.liveSteps + 1)

def messageDelta (model : String) (delta : List (String × Json)) : Step (List Action) := do
  let extend (fields : List (String × Json)) := delta.foldl (fun fields p => put p.1 p.2 fields) fields
  update fun a => { a with streamUsage := .obj (extend (a.streamUsage.obj?.getD [])) }
  update fun a => a.updateContext model a.streamUsage
  let a ← current
  let totals := totalsOf a.streamUsage
  pure (if 0 < totals.input + totals.cacheRead + totals.cacheWrite then
    [.event { event := .usage a.context (some a.liveUsage) }] else [])

def messageStop (a : Claude) : Claude :=
  let totals := totalsOf a.streamUsage
  { a with
    liveTotals := {
      input := a.liveTotals.input + totals.input
      cacheRead := a.liveTotals.cacheRead + totals.cacheRead
      cacheWrite := a.liveTotals.cacheWrite + totals.cacheWrite
      output := a.liveTotals.output + totals.output }
    liveSteps := a.liveSteps + 1 }

/-- The counters a streamed event brings. -/
def streamCounters (event : Json) : Step (List Action) := do
  let a ← current
  if kind event = "message_start" then do
    update fun a => { a with
      streamModel := ((event.index "message").index "model").str?
      streamUsage := (event.index "message").index "usage" }
    pure []
  else if kind event = "message_delta" then
    match a.streamModel, (event.index "usage").obj? with
    | some model, some delta => messageDelta model delta
    | _, _ => pure []
  else if kind event = "message_stop" then do
    update fun a => if a.streamModel.isSome then { a.messageStop with streamModel := none } else a
    pure []
  else pure []

/-- What a streamed event tells of what the agent does. -/
def streamPhase (event : Json) : Option ExecutionPhase :=
  if kind event = "content_block_start" then
    if kind (event.index "content_block") ∈ ["thinking", "redacted_thinking"] then some .thinking
    else if kind (event.index "content_block") = "text" then some .replying
    else some .waiting
  else if kind event = "content_block_delta" then
    if kind (event.index "delta") = "thinking_delta" then some .thinking else none
  else if kind event ∈ ["message_start", "message_stop", "content_block_stop"] then some .waiting
  else none

def streamProgress (event : Json) : Step (List Action) := do
  let a ← current
  match streamPhase event with
  | some phase =>
    if a.progress = some phase then pure []
    else do
      update fun a => { a with progress := some phase }
      pure [.event { event := .progress phase }]
  | none => pure []

def streamText (event : Json) : Step (List Action) := do
  match (event.index "delta").index "text" with
  | .str text =>
    if kind event = "content_block_delta" ∧ kind (event.index "delta") = "text_delta" then do
      update fun a => { a with progress := some .replying, streamed := true, emittedText := true }
      pure [.event { event := .text text }]
    else pure []
  | _ => pure []

/-- `stream_event`. -/
def streamEvent (m : Json) : Step (List Action) := do
  let event := m.index "event"
  if (m.index "parent_tool_use_id").isNull then do
    let counters ← streamCounters event
    let progress ← streamProgress event
    let text ← streamText event
    pure (counters ++ progress ++ text)
  else pure []

/-! ## Whole messages -/

/-- An agent started by a tool call of the turn. -/
def agentStarted (block : Json) : Step (List Action) := do
  let id ← orError "无效的 Claude Agent 工具标识"
    ((block.index "id").str?.filter fun id => id ≠ "" ∧ id.utf8ByteSize ≤ 256)
  let a ← current
  bailIf (256 ≤ a.foregroundAgents.length ∧ id ∉ a.foregroundAgents) "Claude 子智能体数量超出限制"
  update fun a => { a with foregroundAgents := a.foregroundAgents.insert id }
  pure [subagentAction ("tool:" ++ id) (some id) (block.index "input") (some .running)]

/-- A block of a message of the agent; `top` says that it is the turn's. -/
def assistantBlock (top : Bool) (block : Json) : Step (List Action) := do
  let a ← current
  if kind block = "text" ∧ ¬a.streamed ∧ top then
    match (block.index "text").str? with
    | some text => do
      update fun a => { a with emittedText := true }
      pure [.event { event := .text text }]
    | none => pure []
  else if kind block = "tool_use" then do
    let agent := (block.index "name").str? ∈ [some "Agent", some "Task"]
    update fun a => { a with delegated := a.delegated || agent }
    let started ← (if agent ∧ top then agentStarted block else pure [])
    let name := (block.index "name").str?.getD "Tool"
    pure (started ++
      [.event { event := .tool ((block.index "id").str?.getD "") name (block.index "input") }])
  else pure []

/-- `assistant`. -/
def assistant (m : Json) : Step (List Action) := do
  let message := m.index "message"
  let top := (m.index "parent_tool_use_id").isNull
  let before ← current
  update fun a => match top, (message.index "model").str? with
    | true, some model => a.updateContext model (message.index "usage")
    | _, _ => a
  let a ← current
  let blocks ← gather (assistantBlock top) (message.index "content").items
  update fun a => { a with streamed := false }
  pure ((if a.context = before.context then [] else [.event { event := .usage a.context none }]) ++ blocks)

/-- `record_skill_load`. -/
def recordSkillLoad (name : String) : Step (List Action) := do
  let a ← current
  if 64 ≤ a.skillLoads.length ∨ name ∈ a.skillLoads then pure []
  else do
    update fun a => { a with skillLoads := a.skillLoads.insert name }
    pure [.event { event := .notice ("已加载 Skill：" ++ name) }]

/-- The name in the echo of a command. -/
def echoedCommand (text : List Char) : Option String := do
  let (_, rest) ← splitOnce "<command-name>/".toList text
  let (name, _) ← splitOnce "</command-name>".toList rest
  return String.ofList name

/-- The first text of a message. -/
def messageText (content : Json) : Option String :=
  content.str?.or (content.arr?.bind fun blocks => blocks.findSome? fun block =>
    if kind block = "text" then (block.index "text").str? else none)

/-- A skill is loaded by the text of its file. -/
def skillText (text : List Char) : Step (List Action) := do
  match splitOnce "\n\n".toList text with
  | some (header, body) =>
    let marker := "Base directory for this skill: ".toList
    let directory := header.drop marker.length
    if ¬marker <+: header ∨ 4096 < (String.ofList directory).utf8ByteSize ∨ directory.head? ≠ some '/' ∨
        body.all isWhitespace then pure []
    else do
      let a ← current
      update fun a => { a with pendingSkillCommand := none }
      match a.pendingSkillCommand with
      | some name => recordSkillLoad name
      | none => pure []
  | none => pure []

/-- `skill_load`. -/
def skillLoad (m : Json) : Step (List Action) := do
  let a ← current
  match messageText ((m.index "message").index "content") with
  | none => pure []
  | some text =>
    if a.phase ≠ .running then pure []
    else if "<command-message>".toList <+: text.toList then do
      let name := (echoedCommand text.toList).filter fun name =>
        name ∈ a.commands ∧ name ∈ a.requestedSkillCommands
      if (m.index "isReplay").bool? = some true ∧ name.any (· ∈ a.skills) then do
        update fun a => { a with pendingSkillCommand := none }
        recordSkillLoad (name.getD "")
      else do
        update fun a => { a with pendingSkillCommand := name }
        pure []
    else if (m.index "isSynthetic").bool? ≠ some true ∧ (m.index "isMeta").bool? ≠ some true then do
      update fun a => { a with pendingSkillCommand := none }
      pure []
    else skillText text.toList

/-- A block of a message of the user. -/
def userBlock (top : Bool) (block : Json) : Step (List Action) := do
  if kind block = "tool_result" ∧ top then do
    let a ← current
    let id := (block.index "tool_use_id").str?.getD ""
    let summary := match block.index "content" with
      | .str text => text
      | value => value.render
    let ended := (block.index "tool_use_id").str?.isSome && id ∈ a.foregroundAgents
    when ended (update fun a => { a with foregroundAgents := a.foregroundAgents.filter (· ≠ id) })
    pure ((if ended then [subagentAction ("tool:" ++ id) (some id) (.obj [("summary", .str summary)])
        (some (if (block.index "is_error").bool? = some true then .failed else .completed))] else []) ++
      [.event { event := toolResult id block }])
  else pure []

/-- `user`. -/
def user (m : Json) : Step (List Action) := do
  let loaded ← skillLoad m
  let blocks ← gather (userBlock (m.index "parent_tool_use_id").isNull)
    ((m.index "message").index "content").items
  pure (loaded ++ blocks)

/-! ## Results -/

/-- A result says that its turn failed. -/
def failed (m : Json) : Bool :=
  (m.index "is_error").bool?.getD false || "error".toList.isPrefixOf (subtype m).toList

/-- The end of a child: it neither ends nor starts a turn. -/
def childResult (m : Json) (parent : String) : Step (List Action) := do
  update fun a => { a with streamedChildren := a.streamedChildren.filter (· ≠ parent) }
  let a ← current
  let native := a.agentOf parent
  if native.isSome ∨ parent ∈ a.foregroundAgents then do
    let id := native.getD ("tool:" ++ parent)
    update fun a => { a with
      foregroundAgents :=
        if native.isSome then a.foregroundAgents else a.foregroundAgents.filter (· ≠ parent)
      tasks := a.tasks.filter (· ≠ id) }
    pure [subagentAction id (some parent) (.obj [("summary", m.index "result")])
      (some (if failed m then .failed else .completed))]
  else pure []

/-- The inputs that were named are consumed. -/
def settle : Step (List Action) := do
  let a ← current
  let consumed := a.consumedInputs.filterMap fun uuid => a.queuedInputs.lookup uuid
  update fun a => { a with
    queuedInputs := a.queuedInputs.filter (·.1 ∉ a.consumedInputs), consumedInputs := [] }
  pure (if consumed = [] then [] else [.inputsConsumed consumed])

/-- The window of the model the context is for, as a result accounts for it. -/
def windowTokens (models : Json) (context : ContextUsage) (accounting : Option String) : Option ℕ :=
  (((models.get? context.model).or (accounting.bind models.get?)).or
    ((modelUsage models context.model).or (accounting.bind (modelUsage models)))).bind
      fun usage => (count usage "contextWindow").filter (0 < ·)

def accountWindow (models : Json) (a : Claude) : Claude :=
  if models.isNull then a
  else { a with context := a.context.map fun c =>
    { c with windowTokens := windowTokens models c a.accountingModel } }

def turnUsage (m : Json) : TurnUsage where
  inputTokens := count (m.index "usage") "input_tokens"
  cacheReadTokens := count (m.index "usage") "cache_read_input_tokens"
  cacheWriteTokens := count (m.index "usage") "cache_creation_input_tokens"
  outputTokens := count (m.index "usage") "output_tokens"
  modelTimeMs := count m "duration_api_ms"
  steps := count m "num_turns"

/-- The first successful turn of a session without a name asks for one. -/
def requestTitle : Step (List Action) := do
  let a ← current
  if a.titleAttempted ∨ a.nativeNamed then pure []
  else do
    update fun a => { a with titleDescription := none }
    match a.titleDescription, a.nativeSessionId with
    | some description, some id => do
      update fun a => { a with titleAttempted := true, generatingTitleFor := some id }
      pure [.metadataWrite (controlRequest "latte-generate-title"
        [("subtype", .str "generate_session_title"), ("description", .str description),
          ("persist", .bool true)])]
    | _, _ => pure []

/-- The text of a successful result that was not shown before it. -/
def resultText (a : Claude) (m : Json) : List Action :=
  if failed m ∨ a.emittedText then []
  else ((m.index "result").str?.filter (· ≠ "")).toList.map fun text => .event { event := .text text }

def finish (m : Json) : Step (List Action) := do
  update fun a => { a with phase := .betweenTurns }
  update (accountWindow (m.index "modelUsage"))
  let a ← current
  let usage := if a.context.isSome ∨ (m.index "usage").obj?.isSome then
    [.event { event := .usage a.context (some (turnUsage m)) }] else []
  let message := if failed m then some ((m.index "result").str?.getD (m.index "errors").render) else none
  let titled ← (if failed m then pure [] else requestTitle)
  update fun a => { a with lastResult := (m.index "result").str? }
  pure (usage ++ a.resultText m ++ titled ++ [.finished (failed m) message])

/-- A result that says nothing new after its turn: an empty one, or the last one again. -/
def Trailing (a : Claude) (m : Json) : Prop :=
  let text := (m.index "result").str?.filter (· ≠ "")
  a.phase = .betweenTurns ∧ failed m = false ∧ (text = none ∨ text = a.lastResult)

instance (a : Claude) (m : Json) : Decidable (a.Trailing m) := inferInstanceAs (Decidable (_ ∧ _ ∧ _))

/-- The child a result is about. -/
def resultChild (m : Json) : Option String := (m.index "parent_tool_use_id").str?.filter (· ≠ "")

/-- `result`, of the turn. -/
def turnResult (m : Json) : Step (List Action) := do
  let reported ← settle
  let a ← current
  if a.Trailing m then pure reported
  else do
    let started ← (if a.phase = .betweenTurns then revive else pure [])
    let a ← current
    bailIf (a.phase ≠ .running) "Claude 在初始化完成前返回了任务结果"
    let ended ← finish m
    pure (reported ++ started ++ ended)

def result (m : Json) : Step (List Action) :=
  match resultChild m with
  | some parent => childResult m parent
  | none => turnResult m

/-! ## The adapter -/

/-- The `match` of `decode`, by the type of a message. -/
def dispatch (m : Json) : Step (List Action) := do
  let requestId := ((m.index "response").index "request_id").str?
  if kind m = "control_response" then
    if requestId = some "latte-interrupt" then interruptAnswered m
    else if requestId = some "latte-init" then initAnswered m
    else pure []
  else if kind m = "system" then
    if subtype m = "init" ∧ (m.index "parent_tool_use_id").isNull then systemInit m
    else if subtype m = "session_state_changed" then do
      update fun a => { a with sessionState := (m.index "state").str? }
      pure []
    else if subtype m = "task_started" then taskStarted m
    else if subtype m ∈ ["task_notification", "task_updated", "task_progress"] then taskChanged m
    else if subtype m = "compact_boundary" then forgetContext
    else pure []
  else if kind m = "conversation_reset" then forgetContext
  else if kind m = "control_request" then nativeRequest m
  else if kind m = "stream_event" then streamEvent m
  else if kind m = "assistant" then assistant m
  else if kind m = "user" then user m
  else if kind m = "result" then result m
  else pure []

/-- The part of `decode` after the start of a turn: the answers about titles come before all else. -/
def decodeTurn (m : Json) : Step (List Action) := do
  let a ← current
  let requestId := ((m.index "response").index "request_id").str?
  let changed := kind m = "system" ∧ subtype m = "session_title_changed"
  if kind m = "control_response" ∧ requestId = some "latte-generate-title" then titleGenerated m
  else
    match a.«renaming».filter fun p => kind m = "control_response" ∧ requestId = some p.1 with
    | some (_, requested) => renamed requested (m.index "response")
    | none =>
      if changed ∧ a.nativeSessionId.any (fun id => (m.index "session_id").str?.any (· ≠ id)) then pure []
      else if changed ∧ (m.index "parent_tool_use_id").isNull then titleChanged m
      else dispatch m

/-- `decode`. -/
def decode (m : Json) : Step (List Action) :=
  match (m.index "parent_tool_use_id").str?.filter fun _ =>
    kind m ∈ ["assistant", "stream_event", "user"] with
  | some parent => childMessage m parent
  | none => do
    update (attributed m)
    let a ← current
    let started ← (if a.phase = .betweenTurns ∧ shows m then revive else pure [])
    let output ← decodeTurn m
    pure (started ++ output)

/-- What one answer stands for. -/
def answerText (question : UserQuestion) (answer : QuestionAnswer) : String :=
  let labels := answer.optionIndices.filterMap fun i => question.options[i]?.map (·.label)
  ", ".intercalate (labels ++ ((answer.text.filter (!blank ·)).map trim).toList)

/-- The answers under the texts of the native questions. -/
def answerFields (answers : List QuestionAnswer) :
    List (UserQuestion × Json) → Except String (List (String × Json))
  | [] => .ok []
  | (question, native) :: rest => do
    let answer ← Fallible.orError "问题没有回答" (answers.find? (·.questionId = question.id))
    let text ← Fallible.orError "问题文本缺失" (native.index "question").str?
    return (text, .str (answerText question answer)) :: (← answerFields answers rest)

/-- The answer to a question, with the answers put into its input. -/
def questionResponse (id : String) (input : Json) (questions : List UserQuestion) :
    Option (List QuestionAnswer) → Except String Json
  | none => .ok (controlResponse id (denial "用户跳过了本次问题，请勿假定用户已回答"))
  | some answers => do
    validateQuestions questions answers
    let native ← Fallible.orError "问题参数不完整" (input.index "questions").arr?
    let fields ← answerFields answers (questions.zip native)
    return approval id (.obj (put "answers" (.obj fields) (input.obj?.getD []))) true

/-- The running or the next turn can use what the user says. -/
def inSession (a : Claude) : Bool := a.phase = .running || a.phase = .betweenTurns

/-- `advance`. -/
def advance : Input → Step (List Action)
  | .renameTitle id title => do
    let a ← current
    bailIf (a.inSession = false) "原生会话尚未就绪，标题未修改"
    bailIf (a.«renaming».isSome) "原生标题修改结果待确认，请稍后重试"
    update fun a => { a with «renaming» := some (id, title), renameResultTitle := none }
    pure [.write (controlRequest id
      [("subtype", .str "rename_session"), ("title", .str title), ("source", .str "host")])]
  | .open => do
    let a ← current
    bailIf (a.phase ≠ .idle) "Claude 已经启动"
    update fun a => { a with phase := .opening }
    pure [.write initializeFrame]
  | .interrupt => do
    let a ← current
    if a.phase ≠ .running then pure [.interrupted]
    else pure [.write (controlRequest "latte-interrupt" [("subtype", .str "interrupt")])]
  | .discoverCommands => do
    let a ← current
    bailIf (a.phase ≠ .idle) "Claude 已经启动"
    update fun a => { a with phase := .discovering }
    pure [.write initializeFrame]
  | .queue requestId text uuid => do
    let a ← current
    bailIf (a.phase ≠ .running) "Agent 当前不能接收运行中消息"
    checkCommand text
    bailIf (16 ≤ a.queuedInputs.length) "Agent 待处理消息已达上限"
    update fun a => { a with queuedInputs := put uuid requestId a.queuedInputs }
    update (rememberSkillCommand text)
    pure [.write (.obj (prompt text ++ [("uuid", .str uuid)]))]
  | .start text => do
    let a ← current
    if a.phase = .betweenTurns then do
      checkCommand text
      update fun a => (a.rememberTitleDescription text).resetTurn
      update fun a => { a.rememberSkillCommand text with phase := .running }
      pure [.write (.obj (prompt text))]
    else do
      bailIf (a.phase ≠ .idle) "Claude 本轮已经启动"
      update fun a => { (a.rememberTitleDescription text).rememberSkillCommand text with
        phase := .initializing text }
      pure [.write initializeFrame]
  | .message line => do
    let a ← current
    bailIf (a.phase = .idle ∨ a.phase = .finished) "Claude 本轮未启动或已结束"
    let m ← orError "Claude 返回无效 JSON" line
    decode m
  | .questionAnswer id input questions answers => do
    let a ← current
    bailIf (a.inSession = false) "Claude 当前不可处理回答"
    let response ← lift (questionResponse id input questions answers)
    pure [.write response]
  | .approval id input allow => do
    let a ← current
    bailIf (a.inSession = false) "Claude 当前不可处理审批"
    pure [.write (approval id input allow)]

/-- `can_start_turn`. -/
def canStartTurn (a : Claude) : Bool :=
  a.phase = .betweenTurns && a.queuedInputs.isEmpty && a.«renaming».isNone

/-- `can_reconfigure`. -/
def canReconfigure (a : Claude) : Bool :=
  a.canStartTurn && !a.hasBackgroundWork &&
    (a.sessionState = some "idle" || a.sessionState.isNone && !a.delegated)

/-- `set_session_title` and `command`. -/
def create (session : Session) (config : LaunchConfig) : Except String Claude := do
  Fallible.bailIf (config.provider.any (·.metadata.protocol ≠ .anthropicMessages))
    "Claude Code 只支持 Anthropic Messages Provider"
  return {
    nativeNamed := session.customTitle
    nativeSessionId := session.nativeId
    accountingModel := config.model.or (config.provider.map (·.metadata.model)) }

def adapter : AgentAdapter Claude where
  create := create
  canReconfigure := canReconfigure
  canStartTurn := canStartTurn
  hasBackgroundWork := hasBackgroundWork
  advance a input := advance input a

end Claude

end LatteWork
