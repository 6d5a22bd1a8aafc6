import LatteWork.Runtime.Process

/-!
# Admission

How a message becomes a turn. A request is admitted durably before anything of it reaches the
agent; from then on every failure is an end of the turn, never a reason to send again.
-/

namespace LatteWork

namespace Act

open Prog Store

variable {α : Type}

def reconfigureBlocked : String :=
  "当前会话仍有后台任务或待确认状态，无法更换模型、Provider、权限或思考强度；请沿用当前配置发送，消息未发送"

/-- `Process::can_start_turn`. -/
def canStartTurn (agent : AgentAdapter α) (p : Process α) : Bool :=
  p.ready && !p.turnActive && !p.stopping && !p.interruptAckPending && p.pending.isEmpty &&
    agent.canStartTurn p.adapter

/-- What a turn says of its provider and model. -/
def modelNotice (config : LaunchConfig) : Option String :=
  match config.provider with
  | some provider =>
    some s!"Provider：{provider.metadata.name} · 模型：{config.model.getD provider.metadata.model}"
  | none => config.model.map fun m => s!"模型：{m}"

/-- The baselines of an admitted turn. -/
def saveBaselines (ctx : Setting α) (requestId : String) : Act α Unit := do
  let baseline ← capture
  db (.saveTurnBaseline ctx.session requestId baseline)
  let known ← read fun s => s.baseline ctx.session
  if known.isSome then pure ()
  else do
    let w ← current
    db (.saveBaseline ctx.session
      (if w.store.firstRequest ctx.session then baseline
        else .ofUnavailable w.outside.now "此历史任务没有记录文件基线，请查看工作区改动"))

def noteModel (ctx : Setting α) (config : LaunchConfig) : Act α Unit :=
  match modelNotice config with
  | none => pure ()
  | some text => db (.event ctx.session { event := .notice text })

/-- What `accept_turn` does once the request is admitted. -/
def startTurn (ctx : Setting α) (turn : SendTurn) : Act α Unit := do
  saveBaselines ctx turn.requestId
  let w ← current
  when w.process.isNone (spawn ctx turn.config)
  let p ← theProcess "Agent process missing"
  setProcess fun p => { p with
    turnActive := true
    backgroundAtStart := ctx.agent.hasBackgroundWork p.adapter }
  noteModel ctx p.config
  emit (.started turn.requestId turn.text)
  let actions ← advance ctx (.start turn.text)
  apply ctx actions

/-- The end of a turn that was admitted and could not be started. -/
def failStart (ctx : Setting α) (turn : SendTurn) (e : String) : Act α Unit := do
  let w ← current
  let backgroundPending := w.process.any fun p => p.turnActive && p.backgroundAtStart
  let message := ((w.process.map (·.config)).getD turn.config).redact e
  close
  finishTurn ctx true backgroundPending
  db (.endSubagents ctx.session .unknown)
  db (.state ctx.session .failed (some message))

/-- An idle process under another configuration is closed, unless that would lose work. -/
def reconfigure (ctx : Setting α) (config : LaunchConfig) : Act α Unit := do
  let w ← current
  match w.process with
  | none => pure ()
  | some p =>
    if sameConfig p.config config then pure ()
    else do
      bailIf (¬ctx.agent.canReconfigure p.adapter) reconfigureBlocked
      close

/-- `accept_turn`: whether the request was new. -/
def acceptTurn (ctx : Setting α) (turn : SendTurn) (onAdmitted : Act α Unit) : Act α Bool := do
  let accepted ← read fun s => s.alreadyAccepted ctx.session turn.submission
  if accepted then pure false
  else do
    let session ← read fun s => s.session ctx.session
    bailIf session.status.active "会话已有运行中的任务"
    let w ← current
    bailIf (w.process.any fun p => !p.ready) "Agent 会话正在恢复，请稍后重试；消息未发送"
    bailIf (w.process.any fun p => !canStartTurn ctx.agent p)
      "Agent 尚有本轮响应、审批或发送确认待处理；消息未发送"
    reconfigure ctx turn.config
    db (.begin ctx.session turn.submission)
    onAdmitted
    rescue (startTurn ctx turn) (failStart ctx turn)
    pure true

/-- Whether a message is queued: it may be, and has to. -/
def mustQueue (ctx : Setting α) (turn : SendTurn) (allowQueue pendingInputs : Bool) :
    Act α Bool :=
  if allowQueue then do
    let w ← current
    let queued ← read fun s => s.queued ctx.session
    let session ← read fun s => s.session ctx.session
    let busy := pendingInputs || session.status.active ||
      w.process.any fun p => !canStartTurn ctx.agent p
    -- an idle process takes input under its own configuration while its children run
    bailIf (¬busy ∧ w.process.any fun p =>
      !sameConfig p.config turn.config && !ctx.agent.canReconfigure p.adapter) reconfigureBlocked
    pure (busy || !queued.isEmpty)
  else pure false

/-- The part of `receive_turn` for a message that is new. -/
def admitTurn (ctx : Setting α) (turn : SendTurn) (allowQueue pendingInputs : Bool)
    (onAdmitted : Act α Unit) : Act α SendResponse := do
  bailIf (pendingInputs ∧ ¬allowQueue) "Agent 尚有已交付的消息待处理"
  let enqueue ← mustQueue ctx turn allowQueue pendingInputs
  if enqueue then do
    db (.enqueue ctx.session turn.submission)
    update fun w => { w with
      queuedConfigs := w.queuedConfigs.filter (·.1 ≠ turn.requestId) ++
        [(turn.requestId, turn.config)] }
    pure (.messageQueued false)
  else do
    when allowQueue (db (.pause ctx.session none))
    let new ← acceptTurn ctx turn onAdmitted
    pure (.accepted (!new))

/-- `receive_turn`. -/
def receiveTurn (ctx : Setting α) (turn : SendTurn) (allowQueue pendingInputs : Bool)
    (onAdmitted : Act α Unit) : Act α SendResponse := do
  let known ← read fun s => s.queuedDuplicate ctx.session turn.submission
  match known with
  | some response => pure response
  | none => do
    let accepted ← read fun s => s.alreadyAccepted ctx.session turn.submission
    if accepted then pure (.accepted true)
    else admitTurn ctx turn allowQueue pendingInputs onAdmitted

end Act

end LatteWork
