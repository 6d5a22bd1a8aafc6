import LatteWork.Store.Requests

/-!
# The message queue

Messages sent while the agent is busy wait in a durable queue. A message is handed to the agent
either by starting its turn (`beginTurn`) or inside a running turn (`markForwarded`); after a
hand-off inside a turn the agent confirms it (`consumeForwarded`), refuses it
(`rejectForwarded`), or its fate stays open (`uncertainForwarded`).
-/

namespace LatteWork

open Fallible Table

/-- `SELECT ... ORDER BY sort_order,position`. -/
def QueueRow.before (a b : QueueRow) : Prop :=
  a.sortOrder < b.sortOrder ∨ a.sortOrder = b.sortOrder ∧ a.position ≤ b.position

instance : DecidableRel QueueRow.before := fun a b => by
  unfold QueueRow.before
  infer_instance

/-- Bytes of the row's `data` column. -/
def QueueRow.bytes (row : QueueRow) : ℕ := row.data.toJson.size

/-- The messages that count against the limits of a session. -/
def QueueRow.held (id : String) (row : QueueRow) : Bool :=
  row.sessionId = id && (row.status = .pending || row.status = .forwarded)

def QueueRow.pendingIn (id : String) (row : QueueRow) : Bool :=
  row.sessionId = id && row.status = .pending

/-- The row a session has for a request. -/
def QueueRow.is (id requestId : String) (row : QueueRow) : Bool :=
  row.sessionId = id && row.requestId = requestId

/-- The row a session has for a request, while it is pending. -/
def QueueRow.isPending (id requestId : String) (row : QueueRow) : Bool :=
  row.is id requestId && row.status = .pending

/-- The row a session has for a request, while it is handed off and not answered. -/
def QueueRow.isForwarded (id requestId : String) (row : QueueRow) : Bool :=
  row.is id requestId && row.status = .forwarded

/-- The rows of a session that are handed off and not answered. -/
def QueueRow.forwardedIn (id : String) (row : QueueRow) : Bool :=
  row.sessionId = id && row.status = .forwarded

/-- The message a client queues. -/
def Submission.queued (r : Submission) (now : ℕ) : QueuedMessage where
  requestId := r.requestId
  text := r.text
  model := r.model
  effort := r.effort
  permissionMode := r.permissionMode
  revision := 0
  createdAt := now

namespace Store

/-- The pending rows of a session in the order they will be delivered. -/
def pendingRows (s : Store) (id : String) : List QueueRow :=
  (s.messageQueue.filter (QueueRow.pendingIn id)).insertionSort QueueRow.before

/-- `queued`. -/
def queued (s : Store) (id : String) : Except String (List (QueuedMessage × Option String)) := do
  let _ ← s.session id
  .ok (((s.pendingRows id).take 16).map fun row => (row.data, row.fingerprint))

/-- `queue_state`: whether the queue is paused, and why. -/
def queueState (s : Store) (id : String) : Bool × Option String :=
  match s.messageQueueState.find? (·.sessionId = id) with
  | none => (false, none)
  | some row => (row.paused, row.reason)

/-- `INSERT ... ON CONFLICT(session_id) DO UPDATE` on `message_queue_state`. -/
def setQueueState (s : Store) (row : QueueStateRow) : Store :=
  { s with
    messageQueueState :=
      if s.messageQueueState.any (·.sessionId = row.sessionId) then
        updateWhere (·.sessionId = row.sessionId) (fun _ => row) s.messageQueueState
      else s.messageQueueState ++ [row] }

/-- `pause_queue`: pause for a reason, or resume without one. -/
def pauseQueue (s : Store) (id : String) (reason : Option String) : Except String Store := do
  s.referenceSession id
  .ok (s.setQueueState { sessionId := id, paused := reason.isSome, reason })

/-- The answers of `receiveTurn` to a client. -/
inductive SendResponse where
  | accepted (duplicate : Bool)
  | messageQueued (duplicate : Bool)
  deriving DecidableEq, Repr, Inhabited

/-- `queued_duplicate`: reconcile a retry with the message as it was first queued, even if an
edited message later ran. -/
def queuedDuplicate (s : Store) (id : String) (r : Submission) :
    Except String (Option SendResponse) := do
  match s.messageQueue.find? (·.requestId = r.requestId) with
  | none => .ok none
  | some row =>
    let original := row.admission
    bailIf (row.sessionId ≠ id ∨ original.text ≠ r.text ∨ original.model ≠ r.model ∨
      original.effort ≠ r.effort ∨ original.permissionMode ≠ r.permissionMode ∨
      row.fingerprint ≠ r.fingerprint) "排队请求 ID 已被其他内容或配置使用，请核对原消息"
    bailIf (row.status = .taken) "此排队消息已取出编辑，不会重新入队"
    bailIf (row.status = .cancelled) "此排队消息已取消，不会重新入队"
    .ok (some (match row.status with
      | .dispatched | .forwarded | .uncertain => .accepted true
      | _ => .messageQueued true))

/-- Bytes of the messages a session holds, the row of `excluded` left out. -/
def heldBytes (s : Store) (id : String) (excluded : Option String) : ℕ :=
  ((s.messageQueue.filter fun row =>
    row.held id && decide (some row.requestId ≠ excluded)).map QueueRow.bytes).sum

/-- The sort order of the next message: behind every message pending now. -/
def nextSortOrder (s : Store) (id : String) : ℕ :=
  ((s.messageQueue.filter (QueueRow.pendingIn id)).map (·.sortOrder)).foldr max 0 + 1

/-- `enqueue`. -/
def enqueue (s : Store) (id : String) (r : Submission) (now : ℕ) : Except String Store := do
  bailIf (blank r.text ∨ 128 * 1024 < r.text.utf8ByteSize ∨ r.requestId = "" ∨
    100 < r.requestId.utf8ByteSize ∨ (∃ v ∈ r.model, 256 < v.utf8ByteSize) ∨
    (∃ v ∈ r.permissionMode, 128 < v.utf8ByteSize)) "排队消息内容无效（输入上限 128 KiB）"
  let session ← s.session id
  bailIf session.archived "请先取消归档再发送消息"
  let queued ← s.queued id
  bailIf (∃ entry ∈ queued, entry.2 ≠ r.fingerprint)
    "队列中已有其他 Provider 的消息，请待其完成或取消后再发送"
  bailIf (16 ≤ (s.messageQueue.filter (QueueRow.held id)).length) "此会话最多排队 16 条消息"
  let entry := r.queued now
  bailIf (512 * 1024 < s.heldBytes id none + entry.toJson.size)
    "排队内容已达 512 KiB，请等待执行或移除消息"
  bailIf (s.messageQueue.any (·.requestId = r.requestId))
    "UNIQUE constraint failed: message_queue.request_id"
  let row : QueueRow :=
    { position := s.lastPosition + 1, requestId := r.requestId, sessionId := id
      admission := entry, data := entry, fingerprint := r.fingerprint
      sortOrder := s.nextSortOrder id }
  .ok { s with
    messageQueue := s.messageQueue ++ [row]
    lastPosition := s.lastPosition + 1
    messageQueueState :=
      if s.messageQueueState.any (·.sessionId = id) then s.messageQueueState
      else s.messageQueueState ++ [{ sessionId := id }] }

/-- `u32::checked_add(1)` on a revision. -/
def nextRevision (revision : ℕ) : Option ℕ :=
  if revision + 1 < 2 ^ 32 then some (revision + 1) else none

/-- `edit_queued`: a new text for a pending message, or its cancellation. -/
def editQueued (s : Store) (id requestId : String) (revision : ℕ) (text : Option String) :
    Except String Store := do
  let queued ← s.queued id
  let (entry, _) ← orError "消息已开始执行或已移除，请刷新队列"
    (queued.find? (·.1.requestId = requestId))
  bailIf (entry.revision ≠ revision) "消息已被更新，请刷新后重试"
  match text with
  | some text =>
    bailIf (blank text ∨ 128 * 1024 < text.utf8ByteSize) "排队消息不能为空或超过 128 KiB"
    let next ← orError "消息修改次数超出范围" (nextRevision entry.revision)
    let entry := { entry with text, revision := next }
    bailIf (512 * 1024 < s.heldBytes id (some requestId) + entry.toJson.size)
      "排队内容已达 512 KiB"
    .ok { s with
      messageQueue := updateWhere (QueueRow.isPending id requestId)
        (fun row => { row with data := entry }) s.messageQueue }
  | none =>
    .ok { s with
      messageQueue := updateWhere (QueueRow.isPending id requestId)
        (fun row => { row with status := .cancelled }) s.messageQueue }

/-- The pending rows of a session, renumbered by the place of their request in `order`. -/
def rank (id : String) (order : List String) (rows : List QueueRow) : List QueueRow :=
  order.zipIdx.foldl (fun rows (requestId, rank) =>
    updateWhere (QueueRow.isPending id requestId)
      (fun row => { row with sortOrder := rank }) rows) rows

/-- `reorder_queue`. Full-list compare-and-swap prevents stale clients from moving a dispatched
or cancelled message back into the queue. Repeating a confirmed order is safe. -/
def reorderQueue (s : Store) (id : String) (expected order : List String) :
    Except String Store := do
  bailIf (16 < expected.length ∨ expected.length ≠ order.length ∨
    ∃ v ∈ expected ++ order, v = "" ∨ 100 < v.utf8ByteSize) "排队顺序无效，请刷新队列"
  bailIf (¬expected.Nodup ∨ ¬order.Nodup ∨ ¬(expected ⊆ order ∧ order ⊆ expected))
    "排队消息必须完整且不能重复，请刷新队列"
  let queued ← s.queued id
  let current := queued.map (·.1.requestId)
  if current = order then
    .ok s
  else
    bailIf (current ≠ expected) "队列已变化，消息可能已开始执行，请刷新后重新排序"
    .ok { s with messageQueue := rank id order s.messageQueue }

/-- The row of a session's request, or the error of `query_row` on none. -/
def queueRow (s : Store) (id requestId : String) : Except String QueueRow :=
  orError "Query returned no rows" (s.messageQueue.find? (QueueRow.is id requestId))

/-- The baseline of a turn whose boundary a hand-off blurs. -/
def overlapUnavailable (now : ℕ) : Snapshot :=
  Snapshot.ofUnavailable now "Agent 已接收后续消息，无法为重叠执行提供安全的单轮撤销"

/-- `mark_forwarded`: record the hand-off of a pending message inside a running turn. -/
def markForwarded (s : Store) (id requestId : String) (revision now : ℕ) :
    Except String Store := do
  let row ← s.queueRow id requestId
  bailIf (row.status ≠ .pending ∨ row.data.revision ≠ revision)
    "消息已发送、移除或更新，请刷新队列"
  let s := { s with
    messageQueue := updateWhere (QueueRow.is id requestId)
      (fun row => { row with status := .forwarded }) s.messageQueue }
  let s := s.insertEvent id (.queuedMessageSent row.data.text row.data.requestId) now
  .ok { s with
    turnChanges := updateWhere (TurnRow.runningIn id)
      (fun turn => { turn with baseline := some (overlapUnavailable now) }) s.turnChanges }

/-- `reject_forwarded`: return a message the agent refused to the queue, and pause. A message
that is not handed off is left alone. -/
def rejectForwarded (s : Store) (id requestId reason : String) (now : ℕ) :
    Except String Store := do
  match s.messageQueue.find? (QueueRow.isForwarded id requestId) with
  | none => .ok s
  | some row =>
    let next ← orError "排队消息版本已达上限" (nextRevision row.data.revision)
    let entry := { row.data with revision := next }
    let reason := "消息未被 Agent 接收，已退回队列：" ++ reason
    let s := { s with
      messageQueue :=
        updateWhere (QueueRow.isForwarded id requestId)
          (fun row => { row with status := .pending, data := entry }) s.messageQueue }
    let s := s.setQueueState { sessionId := id, paused := true, reason := some reason }
    .ok (s.insertEvent id (.notice reason) now)

/-- `consume_forwarded`: retire the inputs the agent confirmed. -/
def consumeForwarded (s : Store) (id : String) (requests : List String) : Store :=
  { s with
    messageQueue := requests.foldl (fun rows requestId =>
      updateWhere (QueueRow.isForwarded id requestId)
        (fun row => { row with status := .dispatched }) rows) s.messageQueue }

def uncertainNotice (count : ℕ) : String :=
  toString count ++ " 条已发送给 Agent 的消息处理状态待确认，请核对原生会话记录；不会自动重发。"

/-- `uncertain_forwarded`: give up on every unanswered hand-off of a session. -/
def uncertainForwarded (s : Store) (id : String) (now : ℕ) : Except String Store := do
  let count := (s.messageQueue.filter (QueueRow.forwardedIn id)).length
  let s := { s with
    messageQueue := updateWhere (QueueRow.forwardedIn id)
      (fun row => { row with status := .uncertain }) s.messageQueue }
  if 0 < count then s.event id (.notice (uncertainNotice count)) now else .ok s

/-- `take_queued`: withdraw a message to edit it elsewhere. Taking it again is safe. -/
def takeQueued (s : Store) (id requestId : String) (revision : ℕ) :
    Except String (Store × QueuedMessage) := do
  let _ ← s.session id
  let row ← s.queueRow id requestId
  bailIf ((row.status ≠ .pending ∧ row.status ≠ .taken) ∨ row.data.revision ≠ revision)
    "消息已执行、移除或更新，请刷新队列"
  .ok ({ s with
    messageQueue := updateWhere (QueueRow.is id requestId)
      (fun row => { row with status := .taken }) s.messageQueue }, row.data)

/-- `clear_queue`: cancel what is pending and forget that the queue was paused. -/
def clearQueue (s : Store) (id : String) : Except String Store := do
  let _ ← s.session id
  .ok { s with
    messageQueue := updateWhere (QueueRow.pendingIn id)
      (fun row => { row with status := .cancelled }) s.messageQueue
    messageQueueState := s.messageQueueState.filter (·.sessionId ≠ id) }

/-- `initialize`: on opening the database, pause every queue that has pending messages. -/
def pauseRestarted (s : Store) : Store :=
  { s with
    messageQueueState := updateWhere
      (fun row => s.messageQueue.any (QueueRow.pendingIn row.sessionId))
      (fun row => { row with paused := true, reason := some "后台已重启，请核对当前任务后继续排队" })
      s.messageQueueState }

end Store

end LatteWork
