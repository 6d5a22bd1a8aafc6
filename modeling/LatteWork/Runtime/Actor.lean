import LatteWork.Runtime.Admission

/-!
# The session actor

One actor serves a session: it takes controls from its mailbox and lines from its agent, one at a
time. What fails ends the process and the turn; after whatever it did, it sends the message that
waits for the agent to be free, or the next one of the queue.
-/

namespace LatteWork

/-- `QueueAction`. -/
inductive QueueAction where
  | take (requestId : String) (revision : ℕ)
  | dispatch (interrupt : Bool) (requestId : String) (revision : ℕ) (config : LaunchConfig)
  | reorder (expected order : List String)
  | edit (requestId : String) (revision : ℕ) (text : Option String)
  | clear
  | resume (configs : List (String × LaunchConfig))

/-- `Control`, with the number of the answer that is waited for. `child` are the reads of a child's
transcript, which touch nothing the actor keeps. -/
inductive Control where
  | child
  | renameTitle (title : String) (waiter : ℕ)
  | «open» (config : LaunchConfig) (waiter : ℕ)
  | interrupt (waiter : ℕ)
  | send (turn : SendTurn) (allowQueue : Bool) (waiter : ℕ)
  | queue (action : QueueAction) (waiter : ℕ)
  | cancel (waiter : Option ℕ) (onlyIfIdle : Bool)
  | answerQuestion (id : String) (answers : Option (List QuestionAnswer)) (waiter : ℕ)
  | approval (id : String) (allow : Bool) (waiter : ℕ)

/-- What the reader of an agent's output gives: a line as `serde_json` reads it, the end, or an
error. -/
inductive NativeOutput where
  | line (line : Option Json)
  | ended
  | unreadable (e : String)

/-- What an actor waits for. -/
inductive Wake where
  | control (c : Control)
  | output (o : NativeOutput)
  | immediateDeadline
  | initDeadline
  | turnDeadline
  | handoffDeadline

namespace Act

open Prog

variable {α β : Type}

/-- The status of the actor's session. -/
def status (ctx : Setting α) : Act α Status := do
  let session ← read fun s => s.session ctx.session
  pure session.status

/-- Background work of the running turn outlives it. -/
def backgroundPending (w : Actor α) : Bool :=
  w.process.any fun p => p.turnActive && p.backgroundAtStart

/-- A process that is opened without a turn. One that cannot be opened is dropped. -/
def launch (ctx : Setting α) (config : LaunchConfig) : Act α Unit :=
  rescue
    (do
      spawn ctx config
      let actions ← advance ctx .open
      apply ctx actions)
    fun e => do
      dropProcess
      fail e

/-! ## Controls -/

/-- `Control::RenameTitle`. -/
def renameTitle (ctx : Setting α) (title : String) (waiter : ℕ) : Act α Unit := do
  let w ← current
  match w.process.filter (·.ready) with
  | none => reply (some waiter) (.error "原生会话尚未就绪，标题未修改")
  | some p =>
    if p.renameReply.isSome then reply (some waiter) (.error "标题修改结果待确认，请稍后重试")
    else do
      let id ← freshUuid
      let result ← attempt (advance ctx (.renameTitle id title))
      match result with
      | .error e => reply (some waiter) (.error e)
      | .ok actions => do
        setProcess fun p => { p with renameReply := some waiter }
        apply ctx actions

/-- `Control::Open`. -/
def openSession (ctx : Setting α) (config : LaunchConfig) (waiter : ℕ) : Act α Unit := do
  let w ← current
  let result ← attempt (when w.process.isNone (launch ctx config))
  match result with
  | .error e => reply (some waiter) (.error e)
  | .ok () => do
    let w ← current
    if w.process.any (·.ready) then reply (some waiter) (.ok .done)
    else update fun w => { w with opening := w.opening ++ [waiter] }

/-- The message that waits for the agent is not sent. -/
def cancelImmediate (message : String) : Act α Unit := do
  let w ← current
  update fun w => { w with immediate := none }
  reply (w.immediate.map (·.reply)) (.error message)

/-- The process ends that took messages over: nobody knows what became of them. -/
def abandonForwarded (ctx : Setting α) : Act α Unit := do
  close
  update fun w => { w with forwarded := [] }
  db (.uncertainForwarded ctx.session)
  db (.endSubagents ctx.session .unknown)

/-- The running turn is interrupted, once. -/
def sendInterrupt (ctx : Setting α) : Act α Unit := do
  setProcess fun p => { p with interruptSent := true, interruptAckPending := true }
  let actions ← advance ctx .interrupt
  apply ctx actions

/-- `Control::Interrupt`. -/
def interrupt (ctx : Setting α) (waiter : ℕ) : Act α Unit := do
  cancelImmediate "发送已取消，消息保留在队列"
  let w ← current
  if w.forwarded ≠ [] then do
    abandonForwarded ctx
    db (.pause ctx.session (some "当前执行已停止，队列已暂停"))
    finishTurn ctx true (backgroundPending w)
    db (.state ctx.session .stopped (some "已停止；已发送消息的处理状态请核对 Agent 记录"))
    reply (some waiter) (.ok .done)
  else match w.process.filter (·.turnActive) with
  | none => reply (some waiter) (.ok .done)
  | some p =>
    if p.stopping then reply (some waiter) (.error "任务正在停止")
    else do
      setProcess fun p => { p with stopping := true, stopReply := some waiter }
      when p.ready (sendInterrupt ctx)

/-- The queued message with a revision. -/
def queuedEntry (s : Store) (id requestId : String) (revision : ℕ) (e : String) :
    Except String (QueuedMessage × Option String) := do
  let entries ← s.queued id
  Fallible.orError e
    (entries.find? fun entry => entry.1.requestId = requestId && entry.1.revision = revision)

def forgetConfig (requestId : String) : Act α Unit :=
  update fun w => { w with queuedConfigs := w.queuedConfigs.filter (·.1 ≠ requestId) }

/-- `queue_snapshot`. -/
def queueSnapshot (ctx : Setting α) : Act α Answer :=
  read fun s => do
    let entries ← s.queued ctx.session
    let (paused, reason) := s.queueState ctx.session
    .ok (.queue (entries.map (·.1)) paused reason)

/-- The adapter is given a queued message for the running turn. -/
def prepareHandOff (ctx : Setting α) (requestId : String) (revision : ℕ) (config : LaunchConfig) :
    Act α (List Action) := do
  let w ← current
  bailIf (w.immediate.isSome ∨ 16 ≤ w.forwarded.length) "Agent 正在切换任务或待处理消息已达上限"
  let p ← theProcess "Agent 未启动"
  bailIf (¬p.ready ∨ p.stopping ∨ p.interruptAckPending ∨ ¬sameConfig p.config config)
    "当前 Agent 尚未就绪或执行配置不一致，消息保留在队列"
  let (entry, _) ← read fun s =>
    queuedEntry s ctx.session requestId revision "消息已执行、移除或更新，请刷新队列"
  let uuid ← freshUuid
  let result ← attempt (advance ctx (.queue requestId entry.text uuid))
  emit (.handed p.pid requestId revision result.isOk)
  lift result

/-- `QueueAction::Dispatch` into the running turn. -/
def handOff (ctx : Setting α) (requestId : String) (revision : ℕ) (config : LaunchConfig)
    (waiter : ℕ) : Act α Unit := do
  let prepared ← attempt (prepareHandOff ctx requestId revision config)
  match prepared with
  | .error e => reply (some waiter) (.error e)
  | .ok actions => do
    -- the adapter holds the message: a hand-off that is not recorded must end the process
    let result ← attempt do
      db (.markForwarded ctx.session requestId revision)
      update fun w => { w with forwarded := w.forwarded.insert requestId }
      forgetConfig requestId
      apply ctx actions
    match result with
    | .ok () => do
      let snapshot ← attempt (queueSnapshot ctx)
      reply (some waiter) snapshot
    | .error e => do
      reply (some waiter) (.error "消息交付结果待确认，不会自动重发，请核对 Agent 记录")
      fail e

/-- The queued message that is sent next, and why the queue was paused before. -/
def prepareSend (ctx : Setting α) (interrupt : Bool) (requestId : String) (revision : ℕ)
    (config : LaunchConfig) : Act α (SendTurn × Option String) := do
  let w ← current
  bailIf w.immediate.isSome "正在发送，请稍后重试"
  bailIf (¬interrupt ∧ w.forwarded ≠ []) "Agent 尚有已交付的消息待处理，请稍后重试"
  bailIf (w.process.any fun p => !p.ready || p.stopping || p.interruptAckPending)
    "Agent 正在准备或停止，请稍后重试"
  bailIf (w.process.any fun p => p.turnActive && !sameConfig p.config config)
    "立即发送需沿用当前 Agent 的执行配置，请编辑后重新发送"
  let (entry, fingerprint) ← read fun s =>
    queuedEntry s ctx.session requestId revision "消息已开始执行、移除或更新，请刷新队列"
  let (paused, reason) ← read fun s => .ok (s.queueState ctx.session)
  db (.pause ctx.session (some "正在发送消息"))
  pure ({ requestId := entry.requestId, text := entry.text, model := entry.model, fingerprint, config },
    if paused then some (reason.getD "队列已暂停") else none)

/-- `QueueAction::Dispatch` of the next turn. -/
def sendNext (ctx : Setting α) (interrupt : Bool) (requestId : String) (revision : ℕ)
    (config : LaunchConfig) (waiter : ℕ) : Act α Unit := do
  let prepared ← attempt (prepareSend ctx interrupt requestId revision config)
  match prepared with
  | .error e => reply (some waiter) (.error e)
  | .ok (turn, restoreReason) => do
    update fun w => { w with immediate := some { turn, restoreReason, reply := waiter } }
    let w ← current
    if interrupt ∧ w.forwarded ≠ [] then do
      abandonForwarded ctx
      finishTurn ctx true (backgroundPending w)
      db (.state ctx.session .stopped (some "已停止当前任务"))
    else if interrupt ∧ w.process.any (·.turnActive) then do
      setProcess fun p => { p with stopping := true }
      sendInterrupt ctx
    else pure ()

/-- The other queue actions. -/
def changeQueue (ctx : Setting α) (action : QueueAction) : Act α Answer := do
  let w ← current
  bailIf w.immediate.isSome "正在发送，请稍后操作队列"
  match action with
  | .dispatch .. => fail "unreachable"
  | .take requestId revision => do
    let (_, entry) ← read fun s => s.takeQueued ctx.session requestId revision
    db (.take ctx.session requestId revision)
    forgetConfig requestId
    pure (.taken entry)
  | .edit requestId revision text => do
    db (.edit ctx.session requestId revision text)
    when text.isNone (forgetConfig requestId)
    queueSnapshot ctx
  | .reorder expected order => do
    db (.reorder ctx.session expected order)
    queueSnapshot ctx
  | .clear => do
    db (.clear ctx.session)
    update fun w => { w with queuedConfigs := [] }
    queueSnapshot ctx
  | .resume configs => do
    let entries ← read fun s => s.queued ctx.session
    bailIf (entries.length ≠ configs.length ∨
      ∃ entry ∈ entries, (configs.lookup entry.1.requestId).isNone) "队列已变化，请刷新后继续"
    update fun w => { w with queuedConfigs := configs }
    db (.pause ctx.session none)
    queueSnapshot ctx

/-- `Control::Queue`. -/
def queue (ctx : Setting α) (action : QueueAction) (waiter : ℕ) : Act α Unit := do
  let w ← current
  match action with
  | .dispatch interrupt requestId revision config =>
    if interrupt = false ∧ w.process.any (·.turnActive) then
      handOff ctx requestId revision config waiter
    else sendNext ctx interrupt requestId revision config waiter
  | action => do
    let result ← attempt (changeQueue ctx action)
    reply (some waiter) result

/-- `Control::Send`: a message is answered once it is admitted, whatever becomes of it. -/
def send (ctx : Setting α) (turn : SendTurn) (allowQueue : Bool) (waiter : ℕ) : Act α Unit := do
  update fun w => { w with admitted := false }
  let w ← current
  let result ← attempt (receiveTurn ctx turn allowQueue (w.forwarded ≠ []) do
    update fun w => { w with admitted := true }
    reply (some waiter) (.ok (.sent (.accepted false))))
  let w ← current
  if w.admitted then pure () else reply (some waiter) (result.map .sent)

/-- The queue holds nothing that would be sent. -/
def queueIdle (s : Store) (id : String) : Bool :=
  match s.queued id with
  | .ok entries => (s.queueState id).1 || entries.isEmpty
  | .error _ => false

/-- `Control::Cancel` is refused: the session is not idle. -/
def refusesCancel (ctx : Setting α) (w : Actor α) : Bool :=
  w.immediate.isSome || !w.forwarded.isEmpty ||
    w.process.any (fun p => p.turnActive || p.interruptAckPending || !p.pending.isEmpty ||
      !ctx.agent.canReconfigure p.adapter) ||
    !queueIdle w.store ctx.session

/-- What is left of the session when the actor ends. -/
def settleCancelled (ctx : Setting α) : Act α Unit := do
  db (.endSubagents ctx.session .stopped)
  let status ← status ctx
  when status.active (db (.state ctx.session .stopped (some "已停止；已执行的文件改动不会撤销。")))

/-- `Control::Cancel`: whether the actor goes on. -/
def cancel (ctx : Setting α) (waiter : Option ℕ) (onlyIfIdle : Bool) : Act α Bool := do
  when (onlyIfIdle = false) do
    update fun w => { w with forwarded := [] }
    let _ ← attempt (db (.uncertainForwarded ctx.session))
    pure ()
  let w ← current
  if onlyIfIdle ∧ refusesCancel ctx w then do
    reply waiter (.error "会话有运行任务、审批或后台任务，请确认后关闭")
    pure true
  else do
    let _ ← attempt (db (.pause ctx.session (some "当前执行已停止，队列已暂停")))
    cancelImmediate "发送已取消，消息保留在队列"
    let w ← current
    close
    let _ ← attempt (finishTurn ctx true (backgroundPending w))
    let result ← attempt (settleCancelled ctx)
    reply waiter (result.map fun _ => .done)
    pure false

/-- What was asked under an id is decided: it does not wait any more. -/
def takeInteraction (id : String) (e : String) (decision : Decision) : Act α Interaction := do
  let p ← theProcess "此会话没有运行中的任务"
  let i ← orError e (p.pending.lookup id)
  setProcess fun p => { p with pending := p.pending.filter (·.1 ≠ id) }
  emit (.answered p.pid id i decision)
  pure i

/-- The session waits for the user, runs, or is done. -/
def settleDecision (ctx : Setting α) : Act α Unit := do
  let p ← theProcess "此会话没有运行中的任务"
  db (.state ctx.session
    (if p.pending ≠ [] then .waiting else if p.turnActive then .running else .completed) none)

/-- A decision of the user goes to the agent, as the answer to what was asked under the id. -/
def respond (ctx : Setting α) (id : String) (e : String) (decision : Decision)
    (input : Interaction → Except String Input) (resolved : Process α → Act α Unit) : Act α Unit := do
  let i ← takeInteraction id e decision
  let input ← lift (input i)
  let actions ← advance ctx input
  apply ctx actions
  let p ← theProcess "此会话没有运行中的任务"
  resolved p
  settleDecision ctx

/-- The outcome of a decision. What failed ends the process. -/
def resolve (waiter : ℕ) (m : Act α Unit) : Act α Unit := do
  let result ← attempt m
  reply (some waiter) (result.map fun _ => .done)
  lift result

/-- The answers fit the question. -/
def validAnswers (questions : List UserQuestion) (answers : Option (List QuestionAnswer)) :
    Except String Unit :=
  match answers with
  | some answers => validateQuestions questions answers
  | none => .ok ()

/-- A question waits under the id, and the answers fit it. -/
def checkAnswers (w : Actor α) (id : String) (answers : Option (List QuestionAnswer)) :
    Except String Unit := do
  let questions ← Fallible.orError "问题已过期或不属于当前执行"
    ((w.process.bind fun p => p.pending.lookup id).bind (·.questions))
  validAnswers questions answers

/-- `Control::AnswerQuestion`. -/
def answerQuestion (ctx : Setting α) (id : String) (answers : Option (List QuestionAnswer))
    (waiter : ℕ) : Act α Unit := do
  let w ← current
  match checkAnswers w id answers with
  | .error e => reply (some waiter) (.error e)
  | .ok () => resolve waiter (respond ctx id "问题已过期" (.answers answers)
      (fun i => do
        let questions ← Fallible.orError "此交互不是问题" i.questions
        .ok (.questionAnswer i.nativeId i.input questions answers))
      fun p => logEvent ctx p.config { event := .questionResolved id answers })

/-- `Control::Approval`. -/
def approval (ctx : Setting α) (id : String) (allow : Bool) (waiter : ℕ) : Act α Unit := do
  let w ← current
  if (w.process.bind fun p => p.pending.lookup id).any (·.questions.isNone) then
    resolve waiter (respond ctx id "审批已过期或不属于当前执行" (.allow allow)
      (fun i => .ok (.approval i.nativeId i.input allow))
      fun _ => db (.event ctx.session { event := .approvalResolved id allow }))
  else reply (some waiter) (.error "审批已过期或不属于当前执行")

/-- `Control`, but for `Cancel`. -/
def control (ctx : Setting α) : Control → Act α Unit
  | .child => pure ()
  | .renameTitle title waiter => renameTitle ctx title waiter
  | .open config waiter => openSession ctx config waiter
  | .interrupt waiter => interrupt ctx waiter
  | .send turn allowQueue waiter => send ctx turn allowQueue waiter
  | .queue action waiter => queue ctx action waiter
  | .cancel .. => pure ()
  | .answerQuestion id answers waiter => answerQuestion ctx id answers waiter
  | .approval id allow waiter => approval ctx id allow waiter

/-! ## The other events -/

/-- Something was read from the agent. -/
def output (ctx : Setting α) : NativeOutput → Act α Unit
  | .ended => fail "Agent 进程意外退出；会话历史已保留，后台任务状态无法恢复"
  | .unreadable e => do
    let session ← read fun s => s.session ctx.session
    fail s!"读取 {session.agent} 原生消息失败：{e}；会话历史已保留"
  | .line line => do
    let actions ← advance ctx (.message line)
    apply ctx actions
    update fun w => { w with
      forwarded := w.forwarded.filter (· ∉ actions.flatMap Action.settles) }

/-- The message was not sent in time: that says nothing about the agent. -/
def immediateExpired (ctx : Setting α) : Act α Unit := do
  let w ← current
  match w.immediate with
  | none => pure ()
  | some pending => do
    cancelImmediate "发送确认超时，消息保留在队列，请核对后重试"
    db (.pause ctx.session
      (pending.restoreReason.or (some "发送确认超时，队列已暂停，请核对后继续")))

/-- One branch of the `select!`, but for `Cancel`. -/
def handle (ctx : Setting α) : Wake → Act α Unit
  | .control c => control ctx c
  | .output o => output ctx o
  | .immediateDeadline => immediateExpired ctx
  | .initDeadline => fail "Agent 初始化超时（18 秒）"
  | .turnDeadline => fail "任务超过 24 小时上限"
  | .handoffDeadline => fail "Agent 未在 24 小时内确认已交付的消息，处理结果待确认；不会自动重发"

/-- The turn, and the session with it, ends in failure. -/
def settleFailed (ctx : Setting α) (message : String) : Act α Unit := do
  db (.endSubagents ctx.session .unknown)
  db (.state ctx.session .failed (some message))

/-- What an error does: the process ends, and one that was ready is opened again. -/
def recover (ctx : Setting α) (e : String) : Act α Unit := do
  update fun w => { w with forwarded := [] }
  let _ ← attempt (db (.uncertainForwarded ctx.session))
  cancelImmediate "发送未确认，消息保留在队列，请核对后重试"
  let _ ← attempt (db (.pause ctx.session (some "执行出现异常，队列已暂停，请核对后继续")))
  let w ← current
  let message := match w.process with
    | some p => p.config.redact e
    | none => e
  reply (w.process.bind (·.stopReply)) (.error message)
  setProcess fun p => { p with stopReply := none }
  close
  let _ ← attempt (finishTurn ctx true (backgroundPending w))
  let _ ← attempt (settleFailed ctx message)
  match w.process.filter (·.ready) with
  | none => pure ()
  | some p => do
    let _ ← attempt (launch ctx p.config)
    pure ()

/-- Those who wait for the session to open are answered once that is known. -/
def answerOpening : Act α Unit := do
  let w ← current
  if w.process.any (·.ready) then do
    forEach (fun waiter => reply (some waiter) (.ok .done)) w.opening
    update fun w => { w with opening := [] }
  else if w.process.isNone then do
    forEach (fun waiter => reply (some waiter) (.error "Agent 会话未能打开，请重试")) w.opening
    update fun w => { w with opening := [] }
  else pure ()

/-! ## After every event -/

/-- A turn that did not end well pauses the queue, and makes hand-offs uncertain. -/
def afterEnd (ctx : Setting α) (previous : Option Status) : Act α Unit := do
  let status ← status ctx
  when (previous.any (fun s => s.active || s ≠ status) ∧ ¬status.active ∧ status ≠ .completed)
    (db (.pause ctx.session (some "当前执行未完成，队列已暂停")))
  let w ← current
  when (¬status.active ∧ status ≠ .completed ∧ w.forwarded ≠ []) do
    update fun w => { w with forwarded := [] }
    db (.uncertainForwarded ctx.session)

/-- A message is in the queue. -/
def isQueued (s : Store) (id requestId : String) : Bool :=
  match s.queued id with
  | .ok entries => entries.any (·.1.requestId = requestId)
  | .error _ => false

/-- The configurations of messages that have left the queue are dropped. -/
def retainConfigs (ctx : Setting α) : Act α Unit :=
  update fun w => { w with
    queuedConfigs := w.queuedConfigs.filter fun c => isQueued w.store ctx.session c.1 }

/-- The message that waited for the agent to be free is sent. -/
def sendImmediate (ctx : Setting α) (previous : Option Status) (status : Status)
    (pending : Immediate) : Act α Answer := do
  bailIf ((status = .failed ∨ status = .unknown) ∧ previous.any (·.active))
    "当前执行异常，发送消息保留在队列"
  let _ ← acceptTurn ctx pending.turn (pure ())
  retainConfigs ctx
  let status ← Act.status ctx
  bailIf (status = .failed) "消息发送失败，请检查 Agent 状态"
  db (.pause ctx.session pending.restoreReason)
  queueSnapshot ctx

def drainImmediate (ctx : Setting α) (previous : Option Status) : Act α Unit := do
  let status ← status ctx
  let w ← current
  match w.immediate with
  | none => pure ()
  | some pending =>
    when (¬status.active ∧ w.process.all (fun p => p.ready && !p.turnActive && !p.interruptAckPending))
      do
        update fun w => { w with immediate := none }
        let result ← attempt (sendImmediate ctx previous status pending)
        reply (some pending.reply) result

/-- The first message of the queue becomes the next turn. -/
def dispatchQueued (ctx : Setting α) (entry : QueuedMessage) (fingerprint : Option String) :
    Act α Unit := do
  let w ← current
  forgetConfig entry.requestId
  let config ← orError "排队的执行配置需重新确认，请点击继续排队" (w.queuedConfigs.lookup entry.requestId)
  let _ ← acceptTurn ctx { requestId := entry.requestId, text := entry.text, model := entry.model,
                           fingerprint, config } (pure ())
  let status ← status ctx
  bailIf (status = .failed) "排队消息未能开始执行，请核对后继续"

def drainQueue (ctx : Setting α) : Act α Unit := do
  let status ← status ctx
  let paused ← read fun s => .ok (s.queueState ctx.session).1
  let w ← current
  if ¬paused ∧ w.forwarded = [] ∧ ¬status.active ∧ w.process.all (canStartTurn ctx.agent) then do
    let entries ← read fun s => s.queued ctx.session
    match entries with
    | [] => pure ()
    | (entry, fingerprint) :: _ => dispatchQueued ctx entry fingerprint
  else pure ()

/-- What the actor does on its own after every event. -/
def drain (ctx : Setting α) (previous : Option Status) : Act α Unit :=
  rescue
    (do
      afterEnd ctx previous
      drainImmediate ctx previous
      drainQueue ctx)
    fun e => do
      update fun w => { w with forwarded := [] }
      let _ ← attempt (db (.uncertainForwarded ctx.session))
      let _ ← attempt (db (.pause ctx.session (some e)))
      pure ()

/-- What is stored to `safe_to_close` after every event. -/
def safeToClose (ctx : Setting α) (w : Actor α) : Bool :=
  queueIdle w.store ctx.session && w.immediate.isNone && w.forwarded.isEmpty &&
    w.process.all fun p =>
      !p.interruptAckPending && p.pending.isEmpty && ctx.agent.canReconfigure p.adapter

/-- One turn of the loop of `actor`: whether the actor goes on. -/
def turn (ctx : Setting α) (wake : Wake) : Act α Bool := do
  let previous ← attempt (status ctx)
  match wake with
  | .control (.cancel waiter onlyIfIdle) => cancel ctx waiter onlyIfIdle
  | wake => do
    rescue (handle ctx wake) (recover ctx)
    answerOpening
    drain ctx previous.toOption
    pure true

end Act

/-- What the actor waits for may happen. -/
def Wake.enabled {α : Type} (w : Actor α) : Wake → Bool
  | .control _ => true
  | .output _ => w.process.isSome
  | .immediateDeadline => w.immediate.isSome
  | .initDeadline => w.process.any (!·.ready)
  | .turnDeadline => w.process.any (·.turnActive)
  | .handoffDeadline => !w.forwarded.isEmpty

/-! ## Runs -/

/-- What wakes an actor, the outcomes of what it will ask of the system, and the database and objects
it finds: others write to them between two of its events. -/
structure Occasion where
  wake : Wake
  outside : Outside
  store : Store
  objects : Objects := []

/-- An actor in use. -/
structure ActorLife (α : Type) where
  actor : Actor α
  ended : Bool := false

/-- The actor as an event finds it. -/
def Actor.at {α : Type} (w : Actor α) (o : Occasion) : Actor α :=
  { w with store := o.store, objects := o.objects, outside := o.outside }

/-- The loop of `actor`, for one event. What does not happen changes nothing. -/
def ActorLife.next {α : Type} (ctx : Setting α) (l : ActorLife α) (o : Occasion) : ActorLife α :=
  if l.ended ∨ o.wake.enabled (l.actor.at o) = false then l
  else
    match (Act.turn ctx o.wake).run (l.actor.at o) with
    | (.ok true, w) => { actor := w }
    | (_, w) => { actor := w, ended := true }

end LatteWork
