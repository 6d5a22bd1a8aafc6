import LatteWork.Lib.Runs
import LatteWork.Store.Reopen

/-!
# Operations on the database

Every operation on sessions, requests and the queue as one alphabet, so that a statement about
all of their interleavings is a statement about runs over it.
-/

namespace LatteWork

/-- One call into the database, with the arguments the caller chose. -/
inductive StoreOp where
  | createSession (fresh projectId agent : String)
  | archive (id : String) (archived : Bool)
  | state (id : String) (status : Status) (message : Option String)
  | event (id : String) (event : AgentEvent)
  | endSubagents (id : String) (status : SubagentStatus)
  | begin (id : String) (r : Submission)
  | enqueue (id : String) (r : Submission)
  | edit (id requestId : String) (revision : ℕ) (text : Option String)
  | reorder (id : String) (expected order : List String)
  | take (id requestId : String) (revision : ℕ)
  | clear (id : String)
  | pause (id : String) (reason : Option String)
  | markForwarded (id requestId : String) (revision : ℕ)
  | rejectForwarded (id requestId reason : String)
  | consumeForwarded (id : String) (requests : List String)
  | uncertainForwarded (id : String)
  | nativeTitle (id title : String) (custom : Bool)
  | nativeSession (id native : String)
  | saveBaseline (id : String) (snapshot : Snapshot)
  | saveTurnBaseline (id requestId : String) (baseline : Snapshot)
  | finishTurn (id : String) (turn : FrozenTurn)
  | updateTurn (id : String) (turn : FrozenTurn)
  | reopen

/-- The operations that leave requests and the queue alone and log only what an agent may log. -/
def StoreOp.quiet : StoreOp → Bool
  | .state .. | .event .. | .endSubagents .. | .pause .. | .nativeTitle .. | .nativeSession ..
  | .saveBaseline .. | .saveTurnBaseline .. | .finishTurn .. | .updateTurn .. => true
  | _ => false

/-- The operations that only follow what an agent did. -/
def StoreOp.follows : StoreOp → Bool
  | .consumeForwarded .. | .rejectForwarded .. => true
  | op => op.quiet

/-- The operations that admit a request. -/
def StoreOp.admits : StoreOp → Bool
  | .begin .. | .enqueue .. => true
  | _ => false

/-- The operation that brings a message back to the queue. -/
def StoreOp.returns : StoreOp → Bool
  | .rejectForwarded .. => true
  | _ => false

/-- The operation that renumbers the queue. -/
def StoreOp.reorders : StoreOp → Bool
  | .reorder .. => true
  | _ => false

/-- The operations that keep the record of a finished turn, and the opening of the database. -/
def StoreOp.ofTurns : StoreOp → Bool
  | .finishTurn .. | .updateTurn .. | .reopen => true
  | _ => false

namespace Store

/-- The database a server starts with: projects, and nothing done in them. -/
def empty (projects : List Project) : Store := { projects }

/-- An operation at a time. -/
def apply (s : Store) (o : StoreOp × ℕ) : Except String Store :=
  match o with
  | (.createSession fresh projectId agent, now) => s.createSession fresh projectId agent now
  | (.archive id archived, _) => s.archiveSession id archived
  | (.state id status message, now) => s.state id status message now
  | (.event id e, now) => s.event id e.event now
  | (.endSubagents id status, now) => s.endSubagents id status now
  | (.begin id r, now) => (s.beginTurn id r now).map (·.1)
  | (.enqueue id r, now) => s.enqueue id r now
  | (.edit id requestId revision text, _) => s.editQueued id requestId revision text
  | (.reorder id expected order, _) => s.reorderQueue id expected order
  | (.take id requestId revision, _) => (s.takeQueued id requestId revision).map (·.1)
  | (.clear id, _) => s.clearQueue id
  | (.pause id reason, _) => s.pauseQueue id reason
  | (.markForwarded id requestId revision, now) => s.markForwarded id requestId revision now
  | (.rejectForwarded id requestId reason, now) => s.rejectForwarded id requestId reason now
  | (.consumeForwarded id requests, _) => .ok (s.consumeForwarded id requests)
  | (.uncertainForwarded id, now) => s.uncertainForwarded id now
  | (.nativeTitle id title custom, _) => s.syncNativeTitle id title custom
  | (.nativeSession id native, _) => s.saveNativeSession id native
  | (.saveBaseline id snapshot, _) => s.saveBaseline id snapshot
  | (.saveTurnBaseline id requestId baseline, _) => s.saveTurnBaseline id requestId baseline
  | (.finishTurn id turn, now) => s.finishTurn id turn now
  | (.updateTurn id turn, now) => s.updateTurn id turn now
  | (.reopen, now) => s.reopen now

/-- An attempted operation. A refused one changes nothing. -/
def step (s : Store) (o : StoreOp × ℕ) : Store := Runs.attempt apply s o

theorem step_ok {s t : Store} {o : StoreOp × ℕ} (h : s.apply o = .ok t) : s.step o = t :=
  Runs.attempt_ok h

theorem step_error {s : Store} {o : StoreOp × ℕ} {e : String} (h : s.apply o = .error e) :
    s.step o = s :=
  Runs.attempt_error h

/-- The database after the operations, in order. -/
def after (s : Store) (ops : List (StoreOp × ℕ)) : Store := Runs.run step s ops

theorem after_concat (s : Store) (ops : List (StoreOp × ℕ)) (o : StoreOp × ℕ) :
    s.after (ops ++ [o]) = (s.after ops).step o :=
  Runs.run_concat ops o

end Store

/-- One commit. `open` and the operations it is made of write in several: when the process dies
between two of them, the database is left with the first alone. -/
inductive StoreWrite where
  | whole (op : StoreOp)
  | pauseRestarted
  | uncertainRows (id : String)
  | dropBaseline (id requestId : String)
  | unknownStatus (session : Session)

namespace Store

open Table

/-- A commit at a time. -/
def write (s : Store) (w : StoreWrite × ℕ) : Except String Store :=
  match w with
  | (.whole op, now) => s.apply (op, now)
  | (.pauseRestarted, _) => .ok s.pauseRestarted
  | (.uncertainRows id, _) => .ok { s with
      messageQueue := updateWhere (QueueRow.forwardedIn id)
        (fun row => { row with status := .uncertain }) s.messageQueue }
  | (.dropBaseline id requestId, _) => .ok { s with
      turnChanges := updateWhere (TurnRow.is id requestId)
        (fun row => { row with baseline := none }) s.turnChanges }
  | (.unknownStatus session, _) => .ok (s.save { session with status := .unknown })

/-- The database after the commits, in order. A refused one changes nothing. -/
def afterWrites (s : Store) (writes : List (StoreWrite × ℕ)) : Store :=
  Runs.run (Runs.attempt write) s writes

end Store

end LatteWork
