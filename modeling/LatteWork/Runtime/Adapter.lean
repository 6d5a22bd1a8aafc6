import LatteWork.Runtime.Config

/-!
# Agent adapters

The contract between the server and an agent's protocol. An adapter turns what the server wants and
what the agent says into ordered actions; it writes nothing and stores nothing itself.
-/

namespace LatteWork

/-- `Input`. A message is one line of the agent's output as `serde_json` reads it, none when the
line is no JSON. `uuid` is the fresh `Uuid` an adapter may name the input with. -/
inductive Input where
  | discoverCommands
  | renameTitle (id title : String)
  | «open»
  | interrupt
  | start (prompt : String)
  | queue (requestId prompt uuid : String)
  | message (line : Option Json)
  | approval (id : String) (input : Json) (allow : Bool)
  | questionAnswer (id : String) (input : Json) (questions : List UserQuestion)
      (answers : Option (List QuestionAnswer))

/-- The agent said something. -/
def Input.isMessage : Input → Bool
  | .message _ => true
  | _ => false

/-- The user decided about a request of the agent. -/
def Input.isDecision : Input → Bool
  | .approval .. | .questionAnswer .. => true
  | _ => false

/-- The actor goes on with an adapter that refuses a title or a message; any other refusal ends the
process. -/
def Input.lenient : Input → Bool
  | .renameTitle .. | .queue .. => true
  | _ => false

inductive AgentCommandUiAction where
  | subagents
  deriving DecidableEq, Repr, Inhabited

structure AgentSlashCommand where
  name : String
  displayName : Option String
  description : String
  argumentHint : String
  uiAction : Option AgentCommandUiAction
  deriving DecidableEq, Repr, Inhabited

inductive Action where
  | nativeName (title : String)
  | generatedTitle (nativeSessionId title : String)
  | titleRenamed (result : Except String String)
  | sourceUsed (id name : String)
  | commands (commands : List AgentSlashCommand)
  | write (frame : Json)
  | metadataWrite (frame : Json)
  | ready
  | turnStarted
  | inputsConsumed (requests : List String)
  | inputRejected (requestId message : String)
  | interrupted
  | event (e : AgentEvent)
  | subagentEvent (toolUseId : String) (e : AgentEvent)
  | nativeSession (id : String)
  | approval (id : String) (toolUseId : Option String) (tool : String) (input : Json)
  | question (id : String) (toolUseId : Option String) (input : Json)
      (questions : List UserQuestion)
  | finished (failed : Bool) (message : Option String)

namespace Action

/-- The handed-off requests an action settles. -/
def settles : Action → List String
  | inputsConsumed requests => requests
  | inputRejected requestId _ => [requestId]
  | _ => []

/-- The inputs an action reports consumed. -/
def consumes : Action → List String
  | inputsConsumed requests => requests
  | _ => []

def rejects (requestId : String) : Action → Bool
  | inputRejected r _ => r = requestId
  | _ => false

/-- Whether the turn failed that an action ends. -/
def failure? : Action → Option Bool
  | finished failed _ => some failed
  | _ => none

def isFinished : Action → Bool
  | finished .. => true
  | _ => false

def isInterrupted : Action → Bool
  | interrupted => true
  | _ => false

def isReady : Action → Bool
  | ready => true
  | _ => false

def isTitleRenamed : Action → Bool
  | titleRenamed _ => true
  | _ => false

def isTurnStarted : Action → Bool
  | turnStarted => true
  | _ => false

end Action

/-- `AgentAdapter`, over the adapter's own state. `create` is what `Process::spawn` does with the
adapter before the agent runs. -/
structure AgentAdapter (α : Type) where
  create : Session → LaunchConfig → Except String α
  canReconfigure : α → Bool
  canStartTurn : α → Bool
  hasBackgroundWork : α → Bool
  advance : α → Input → Except String (List Action) × α

end LatteWork
