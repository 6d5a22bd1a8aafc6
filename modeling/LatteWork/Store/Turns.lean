import LatteWork.Store.MessageQueue

/-!
# Turn records

A turn has a row from its admission on: with the baseline snapshot while it runs, with the frozen
change list once it is over.
-/

namespace LatteWork

open Fallible Table

namespace TurnRow

def is (id requestId : String) (row : TurnRow) : Bool :=
  row.sessionId = id && row.requestId = requestId

def running (id requestId : String) (row : TurnRow) : Bool :=
  row.is id requestId && row.baseline.isSome

def finished (id requestId : String) (row : TurnRow) : Bool :=
  row.is id requestId && row.data.isSome

end TurnRow

namespace Store

/-- `save_turn_baseline`. -/
def saveTurnBaseline (s : Store) (id requestId : String) (baseline : Snapshot) :
    Except String Store := do
  let _ ← smallJson baseline.toJson
  if s.turnChanges.any (TurnRow.is id requestId) then .ok s
  else
    s.referenceSession id
    bailIf ((s.requests.find? (·.id = requestId)).isNone) "FOREIGN KEY constraint failed"
    .ok { s with
      turnChanges := s.turnChanges ++
        [{ sessionId := id, requestId, baseline := some baseline, data := none }] }

/-- `baseline`: whether the session has a task baseline, and which. -/
def baseline (s : Store) (id : String) : Except String (Option Snapshot) := do
  let _ ← s.session id
  .ok ((s.taskBaselines.find? (·.sessionId = id)).map (·.data))

/-- `save_baseline`. -/
def saveBaseline (s : Store) (id : String) (snapshot : Snapshot) : Except String Store := do
  let _ ← smallJson snapshot.toJson
  .ok { s with
    taskBaselines :=
      if s.taskBaselines.any (·.sessionId = id) then s.taskBaselines
      else s.taskBaselines ++ [{ sessionId := id, data := snapshot }] }

/-- `latest_request`. -/
def latestRequest (s : Store) (id : String) : Except String String := do
  let row ← orError "Query returned no rows" (s.requests.filter (·.sessionId = id)).getLast?
  .ok row.id

/-- `first_request`. -/
def firstRequest (s : Store) (id : String) : Bool :=
  (s.requests.filter (·.sessionId = id)).length = 1

/-- `pending_turn`: the newest turn of a session that has not been finished. -/
def pendingTurn (s : Store) (id : String) : Option (String × Snapshot) :=
  (s.turnChanges.reverse.find? (TurnRow.runningIn id)).bind fun row =>
    row.baseline.map fun baseline => (row.requestId, baseline)

/-- `finish_turn`: replace the baseline of a running turn by its frozen record. -/
def finishTurn (s : Store) (id : String) (turn : FrozenTurn) (now : ℕ) : Except String Store := do
  let _ ← smallJson turn.toJson
  if s.turnChanges.any (TurnRow.running id turn.changes.requestId) then
    let event := EventKind.turnChanges turn.changes
    let _ ← smallJson event.toJson
    let s := { s with
      turnChanges := updateWhere (TurnRow.running id turn.changes.requestId)
        (fun row => { row with baseline := none, data := some turn }) s.turnChanges }
    .ok (s.insertEvent id event now)
  else .ok s

/-- The frozen record of a turn, none while it runs. -/
def turnRecord (s : Store) (id requestId : String) : Option FrozenTurn :=
  (s.turnChanges.find? (TurnRow.is id requestId)).bind (·.data)

/-- `turn_changes`. -/
def turnChangesOf (s : Store) (id requestId : String) : Except String FrozenTurn := do
  let _ ← s.session id
  orError "此轮尚未结束或没有保存变更快照" (s.turnRecord id requestId)

/-- `update_turn`: overwrite the frozen record of a finished turn. -/
def updateTurn (s : Store) (id : String) (turn : FrozenTurn) (now : ℕ) : Except String Store := do
  let _ ← smallJson turn.toJson
  bailIf (¬s.turnChanges.any (TurnRow.finished id turn.changes.requestId)) "本轮变更记录缺失"
  let event := EventKind.turnChanges turn.changes
  let _ ← smallJson event.toJson
  let s := { s with
    turnChanges := updateWhere (TurnRow.finished id turn.changes.requestId)
      (fun row => { row with data := some turn }) s.turnChanges }
  .ok (s.insertEvent id event now)

end Store

end LatteWork
