import LatteWork.Providers.Config
import LatteWork.Wire.Protocol

/-!
# The requests of a client

What a call does between the points where it waits. A call that takes the provider of the App looks
its session up, lets the App resolve the provider of the agent, and sends the request with it.
-/

namespace LatteWork

namespace Client

/-- `TurnProvider`. -/
inductive TurnProvider where
  | cli
  | snapshot (s : ProviderSnapshot)
  deriving DecidableEq, Repr, Inhabited

/-- The fields that `Send` and `SendQueued` share. -/
structure SendFields where
  provider : Option TurnProvider
  sessionId : String
  requestId : String
  text : String
  model : Option String
  effort : Option Effort
  permissionMode : Option String
  deriving DecidableEq, Repr, Inhabited

/-- The requests that take a provider, those they need, and any other by its method. -/
inductive Request where
  | session (sessionId : String)
  | models (agent : String) (model projectId : Option String)
  | modelsForProvider (agent : String) (model projectId : Option String) (provider : Option Provider)
  | send (fields : SendFields)
  | sendQueued (fields : SendFields)
  | dispatchQueuedMessage (interrupt : Bool) (sessionId requestId : String) (revision : ℕ)
      (provider : Option TurnProvider)
  | resumeMessageQueue (sessionId : String) (provider : Option TurnProvider)
  | openAgentSession (sessionId : String) (provider : Option TurnProvider)
  | subagentHistory (provider : Option TurnProvider) (sessionId taskId : String) (after : Option ℕ)
      (source : Option String)
  | other (method : String)
  deriving DecidableEq, Repr, Inhabited

inductive Response where
  | session (session : Session)
  | error (code message : String)
  | models (body : Json)
  | accepted (body : Json)
  | messageQueued (duplicate : Bool)
  | messageQueue (body : Json)
  | ok
  | subagentHistory (body : Json)
  | other (body : Json)
  deriving Inhabited

/-- The request starts a turn, moves the queue or opens the agent. -/
def Request.executes : Request → Bool
  | .send _ | .sendQueued _ | .dispatchQueuedMessage .. | .resumeMessageQueue ..
  | .openAgentSession .. => true
  | _ => false

/-- A call, from one point where it waits to the next. -/
inductive Script where
  | done (result : Except String Response)
  | request (request : Request) (next : Except String Response → Script)
  | resolve (agent : String) (next : Except String (Option ProviderSnapshot) → Script)
  deriving Inhabited

/-- `Client::request` alone. -/
def call (request : Request) : Script := .request request .done

/-- The provider of a turn: the snapshot, or what the CLI has configured. -/
def turnProvider (snapshot : Option ProviderSnapshot) : Option TurnProvider :=
  some ((snapshot.map TurnProvider.snapshot).getD .cli)

/-- The request that `request_with_snapshot` sends. -/
def withSnapshot (request : Request) (snapshot : Option ProviderSnapshot) : Option Request :=
  match request with
  | .models agent model projectId =>
    some (.modelsForProvider agent model projectId (snapshot.map (·.provider)))
  | .send fields => some (.send { fields with provider := turnProvider snapshot })
  | .sendQueued fields => some (.sendQueued { fields with provider := turnProvider snapshot })
  | .dispatchQueuedMessage interrupt sessionId requestId revision _ =>
    some (.dispatchQueuedMessage interrupt sessionId requestId revision (turnProvider snapshot))
  | .resumeMessageQueue sessionId _ => some (.resumeMessageQueue sessionId (turnProvider snapshot))
  | .openAgentSession sessionId _ => some (.openAgentSession sessionId (turnProvider snapshot))
  | .subagentHistory _ sessionId taskId after source =>
    some (.subagentHistory (turnProvider snapshot) sessionId taskId after source)
  | _ => none

/-- The response is one to this request. -/
def answers (request : Request) (response : Response) : Bool :=
  match response, request with
  | .models _, .models .. => true
  | .accepted _, .send _ | .accepted _, .sendQueued _ => true
  | .messageQueued _, .send _ | .messageQueued _, .sendQueued _ => true
  | .messageQueue _, .resumeMessageQueue .. | .messageQueue _, .dispatchQueuedMessage .. => true
  | .ok, .openAgentSession .. => true
  | .subagentHistory _, .subagentHistory .. => true
  | .error _ _, _ => true
  | _, _ => false

/-- `request_with_snapshot`. -/
def requestWithSnapshot (request : Request) (snapshot : Option ProviderSnapshot) : Script :=
  match withSnapshot request snapshot with
  | none => .done (.error "unreachable")
  | some sent =>
    .request sent fun
      | .error e => .done (.error e)
      | .ok response =>
        .done (if answers request response then .ok response
          else .error "远程执行响应格式不匹配")

/-- The second half of `request_with_app_provider`. -/
def resolveAndRequest (request : Request) (agent : String) : Script :=
  .resolve agent fun
    | .error e => .done (.error e)
    | .ok snapshot => requestWithSnapshot request snapshot

/-- The session whose agent a request needs. -/
def lookupSession : Request → Option String
  | .send fields | .sendQueued fields => some fields.sessionId
  | .dispatchQueuedMessage _ sessionId .. | .resumeMessageQueue sessionId _
  | .openAgentSession sessionId _ | .subagentHistory _ sessionId .. => some sessionId
  | _ => none

/-- `request_with_app_provider`. -/
def requestWithAppProvider (request : Request) : Script :=
  match request, lookupSession request with
  | .models agent _ _, _ => resolveAndRequest request agent
  | _, some sessionId =>
    .request (.session sessionId) fun
      | .error e => .done (.error e)
      | .ok (.session session) => resolveAndRequest request session.agent
      | .ok (.error _ message) => .done (.error message)
      | .ok _ => .done (.error "会话响应格式不匹配")
  | _, none => .done (.error "此请求不接受本轮 Provider 配置")

end Client

end LatteWork
