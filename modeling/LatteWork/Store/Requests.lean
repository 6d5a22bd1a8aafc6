import LatteWork.Store.Sessions

/-!
# Request admission

A request id is admitted at most once. `alreadyAccepted` compares a retry with the admitted
request, field by field; `begin` admits a new one and starts its turn in the same transaction.
-/

namespace LatteWork

open Fallible Table

/-- What a client sends under one request id, as far as the database compares it. -/
structure Submission where
  requestId : String
  text : String
  model : Option String
  effort : Option Effort
  fingerprint : Option String
  permissionMode : Option String
  deriving DecidableEq, Repr, Inhabited

namespace Store

/-- The row a request was admitted with. -/
def admitted (id : String) (r : Submission) : RequestRow where
  id := r.requestId
  sessionId := id
  text := r.text
  model := r.model
  effort := r.effort
  providerFingerprint := r.fingerprint
  permissionMode := r.permissionMode

/-- `already_accepted`: whether this very request was admitted before. Reuse of its id for
anything else is an error. -/
def alreadyAccepted (s : Store) (id : String) (r : Submission) : Except String Bool := do
  bailIf (r.requestId = "" ∨ 100 < r.requestId.utf8ByteSize ∨ blank r.text ∨
    128 * 1024 < r.text.utf8ByteSize) "任务内容或请求 ID 无效（输入上限 128 KiB）"
  match s.requests.find? (·.id = r.requestId) with
  | none => .ok false
  | some previous =>
    bailIf (previous.sessionId ≠ id ∨ previous.text ≠ r.text ∨ previous.model ≠ r.model ∨
      previous.effort ≠ r.effort ∨ previous.permissionMode ≠ r.permissionMode)
      "请求 ID 已被其他任务使用"
    bailIf (previous.providerFingerprint ≠ r.fingerprint)
      "此请求已接受，但 Provider 配置已改变；请核对原请求状态后再发送新消息"
    .ok true

/-- The session's row while the request's turn runs. -/
def started (session : Session) (r : Submission) : Session :=
  { session with
    status := .running
    model := r.model
    effort := r.effort
    permissionMode := r.permissionMode
    title :=
      if ¬session.customTitle ∧ session.title = "新任务" then
        String.ofList (r.text.toList.take 48)
      else session.title }

/-- The rows a started turn takes out of the queue. -/
def dispatchedBy (id requestId : String) (row : QueueRow) : Bool :=
  row.requestId = requestId && row.sessionId = id &&
    (row.status = .pending || row.status = .forwarded)

/-- `begin`: admit a request and start its turn. The flag is `false` for a request that was
admitted before. -/
def beginTurn (s : Store) (id : String) (r : Submission) (now : ℕ) :
    Except String (Store × Bool) := do
  let accepted ← s.alreadyAccepted id r
  if accepted then
    .ok (s, false)
  else
    let session ← s.session id
    bailIf session.status.active "会话已有运行中的任务"
    bailIf session.archived "请先取消归档再发送消息"
    let s := { s with requests := s.requests ++ [admitted id r] }
    let s := s.save (started session r)
    let s := s.insertEvent id (.user r.text r.requestId) now
    let s := s.insertEvent id (.state .running none) now
    .ok ({ s with
      messageQueue := updateWhere (dispatchedBy id r.requestId)
        (fun row => { row with status := .dispatched }) s.messageQueue }, true)

end Store

end LatteWork
