import LatteWork.Store.Turns

/-!
# Opening the database

Nothing of a previous server process is alive when the database is opened. Every record that
says otherwise is brought to a state that claims nothing: hand-offs become uncertain and their
queues pause, children and sessions become unknown, unfinished turns lose their baseline.
-/

namespace LatteWork

open Fallible Table

namespace Store

/-- The change list of a turn that the restart cut short. -/
def lostTurn (requestId : String) : TurnChanges where
  requestId := requestId
  summary :=
    { entries := []
      unavailable := some "Server 已重启，此轮结束时的文件快照未知；请核对工作区。" }
  interrupted := true
  backgroundPending := false
  undo := .unknown

/-- Hand-offs of one session that the restart left unanswered. -/
def quarantine (now : ℕ) (s : Store) (id : String) : Except String Store := do
  let s ← s.uncertainForwarded id now
  s.pauseQueue id (some "后台已重启，请核对已发送的消息")

/-- One turn whose end the restart hid. -/
def loseTurn (now : ℕ) (s : Store) (turn : String × String) : Except String Store := do
  let s ← s.event turn.1 (.turnChanges (lostTurn turn.2)) now
  .ok { s with
    turnChanges := updateWhere (TurnRow.is turn.1 turn.2)
      (fun row => { row with baseline := none }) s.turnChanges }

/-- One session whose turn the restart cut short. -/
def interrupt (now : ℕ) (s : Store) (session : Session) : Except String Store :=
  (s.save { session with status := .unknown }).event session.id
    (.state .unknown (some "Server 已重启，先前执行结果未知；请核对文件后继续。")) now

/-- `Store::open` on an existing database. -/
def reopen (s : Store) (now : ℕ) : Except String Store := do
  let s := s.pauseRestarted
  let forwarded := ((s.messageQueue.filter (·.status = .forwarded)).map (·.sessionId)).dedup
  let s ← forwarded.foldlM (quarantine now) s
  let children := ((s.subagents.filter (·.task.status.active)).map (·.sessionId)).dedup
  let s ← children.foldlM (fun s id => s.endSubagents id .unknown now) s
  let pending := (s.turnChanges.filter (·.baseline.isSome)).map fun t => (t.sessionId, t.requestId)
  let s ← pending.foldlM (loseTurn now) s
  (s.sessions.reverse.filter (·.status.active)).foldlM (interrupt now) s

end Store

end LatteWork
