import LatteWork.Server.Lifecycle
import Mathlib.Data.List.AList

/-!
# The hosts of a desktop

The desktop reaches each of its hosts over a bridge. A bridge may be dead, a host may not be
reachable, and an answer may be lost after the host acted on the request. What was sent to a host
and what it confirmed to have closed is written down.
-/

namespace LatteWork

/-- A `HashMap`: its entries as it lists them, each key once. A `HashSet` is a map to `Unit`. -/
abbrev HashMap (κ β : Type) : Type := AList fun _ : κ => β

inductive SshAuthMode where
  | none
  | identityFile
  | password
  deriving DecidableEq, Repr, Inhabited

/-- `Host`: how a host is reached. The local host has no `ssh`. -/
structure HostTarget where
  id : String
  name : String
  ssh : Option String := .none
  serverPath : Option String := .none
  auth : SshAuthMode := .none
  identityFile : Option String := .none
  port : Option ℕ := .none
  deriving DecidableEq, Repr, Inhabited

/-- The requests of the desktop about what it owns. -/
inductive HostRequest where
  | closeOwned (serverId owner : String) (resources : List Resource)
  | adopt (serverId previous owner : String) (resources : List Resource)
  | closeAgentSession (id : String)
  | closeTerminal (id : String)
  deriving DecidableEq, Repr, Inhabited

/-- The resources a request is about. -/
def HostRequest.resources : HostRequest → List Resource
  | closeOwned _ _ resources => resources
  | adopt _ _ _ resources => resources
  | closeAgentSession id => [.agentSession id]
  | closeTerminal id => [.terminal id]

inductive HostReply where
  | closed
  | adopted (resources : List Resource)
  | error (message : String)
  deriving DecidableEq, Repr, Inhabited

namespace Service

/-- The host has the session's actor or the terminal. -/
def holds (s : Service) : Resource → Bool
  | .agentSession id => (s.runs.lookup id).isSome
  | .terminal id => (s.terminals.lookup id).isSome

/-- A resource is closed: nothing runs it, and nobody owns it. -/
def close (s : Service) (r : Resource) : Service :=
  let gone := s.forget r
  match r with
  | .agentSession id => { gone with runs := Assoc.drop id s.runs }
  | .terminal id => { gone with terminals := Assoc.drop id s.terminals }

/-- The loop of `CloseOwnedResources`, when every actor answers. -/
def closeEach (owner : String) (s : Service) (resources : List Resource) : Service :=
  resources.foldl (fun s r => if s.owners.lookup r = some owner then s.close r else s) s

/-- How a host answers when nothing fails on its side. -/
def answer (s : Service) : HostRequest → HostReply × Service
  | .closeOwned serverId owner resources =>
    match validateResources owner resources with
    | .error e => (.error e, s)
    | .ok () => (.closed, if serverId ≠ s.serverId then s else closeEach owner s resources)
  | .adopt serverId previous owner resources =>
    match s.adopt serverId previous owner resources with
    | .error e => (.error e, s)
    | .ok (s, adopted) => (.adopted adopted, s)
  | .closeAgentSession id => (.closed, s.close (.agentSession id))
  | .closeTerminal id => (.closed, s.close (.terminal id))

end Service

/-- How a request to a failing host goes: whether a bridge comes up at all, whether the host acts
on the request, and whether it answers with an error or not at all. -/
structure Fault where
  message : String
  connects : Bool := false
  applied : Bool := false
  answered : Bool := false
  deriving DecidableEq, Repr, Inhabited

/-- A bridge to a host. `broken` is known to the desktop, that a bridge is not `alive` is not. -/
structure Client where
  serverId : String
  broken : Bool := false
  alive : Bool := true
  deriving DecidableEq, Repr, Inhabited

inductive WireEvent where
  | sent (host : String) (request : HostRequest)
  | closed (host : String) (resources : List Resource)
  deriving DecidableEq, Repr, Inhabited

/-- The hosts, those of them whose requests fail, and how the requests to those fail, one after the
other. The log has what the desktop sent, and what it was told to be closed. -/
structure World where
  services : String → Service
  failing : String → Bool
  faults : ℕ → Fault
  attempts : ℕ := 0
  log : List WireEvent := []

namespace World

def write (w : World) (events : List WireEvent) : World := { w with log := w.log ++ events }

/-- A host answers a request. -/
def serve (w : World) (host : String) (request : HostRequest) : World :=
  { w with
    services := Function.update w.services host ((w.services host).answer request).2 }

/-- `reconnect`. -/
def connect (w : World) (host : String) : Except String Client × World :=
  let client : Client := { serverId := (w.services host).serverId }
  if w.failing host then
    let fault := w.faults w.attempts
    (if fault.connects then .ok client else .error fault.message,
      { w with attempts := w.attempts + 1 })
  else (.ok client, w)

/-- `exchange`. A bridge that failed once is not used again. -/
def exchange (w : World) (host : String) (client : Client) (request : HostRequest) :
    Except String HostReply × Client × World :=
  if client.broken then (.error "连接已失效，请重新连接；任务不会自动重发", client, w)
  else if w.failing host then
    let fault := w.faults w.attempts
    let w := { w with attempts := w.attempts + 1 }
    let w := (if fault.applied then w.serve host request else w).write [.sent host request]
    if fault.answered then (.ok (.error fault.message), client, w)
    else (.error fault.message, { client with broken := true }, w)
  else if !client.alive then (.error "Host 连接已关闭", { client with broken := true }, w)
  else
    let reply := ((w.services host).answer request).1
    let closed := if reply = .closed then [WireEvent.closed host request.resources] else []
    (.ok reply, client, (w.serve host request).write (.sent host request :: closed))

/-- `close_owned_resources`. What another instance of the host had is gone with it. -/
def closeOwnedResources (w : World) (host : String) (client : Client) (serverId owner : String)
    (resources : List Resource) : Except String Unit × Client × World :=
  if serverId ≠ client.serverId then (.ok (), client, w.write [.closed host resources])
  else
    match w.exchange host client (.closeOwned serverId owner resources) with
    | (.ok .closed, client, w) => (.ok (), client, w)
    | (.ok (.error message), client, w) => (.error message, client, w)
    | (.ok _, client, w) => (.error "资源关闭响应不兼容", client, w)
    | (.error e, client, w) => (.error e, client, w)

/-- `adopt_resources`. -/
def adoptResources (w : World) (host : String) (client : Client)
    (serverId previous owner : String) (resources : List Resource) :
    Except String (List Resource) × Client × World :=
  if serverId ≠ client.serverId then (.ok [], client, w)
  else
    match w.exchange host client (.adopt serverId previous owner resources) with
    | (.ok (.adopted resources), client, w) => (.ok resources, client, w)
    | (.ok (.error message), client, w) => (.error message, client, w)
    | (.ok _, client, w) => (.error "资源恢复响应不兼容", client, w)
    | (.error e, client, w) => (.error e, client, w)

end World

end LatteWork
