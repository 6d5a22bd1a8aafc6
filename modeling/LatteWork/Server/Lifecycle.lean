import LatteWork.Lib.Assoc
import LatteWork.Lib.Fallible
import LatteWork.Lib.Runs

/-!
# Resource ownership

Desktop windows claim the sessions and terminals they use, take over those of a window that went
away, and close their own when they quit. The requests race: claims and adoptions share admission
with the clients' requests, a close excludes all of them until it returns. A close asks a session's
actor and waits for its answer, so it may give up while the actor still has the request before it.
-/

namespace LatteWork

open Fallible

inductive Resource where
  | agentSession (id : String)
  | terminal (id : String)
  deriving DecidableEq, Repr, Inhabited

def Resource.id : Resource → String
  | agentSession id => id
  | terminal id => id

/-- `Run`: what is known of a session's actor. `cancels` are the closes before it, oldest first,
with the owner a close is for; a client's own close is for none. `closed` tells that nothing reads
its requests any more. -/
structure RunHandle where
  closed : Bool := false
  sessionOpen : Bool := false
  safeToClose : Bool := false
  cancels : List (Option String) := []
  deriving DecidableEq, Repr, Inhabited

/-- A `CloseOwnedResources` under way: the resources left, and whether the actor of the first is
being waited for. -/
structure Closing where
  owner : String
  remaining : List Resource
  waiting : Bool := false
  deriving DecidableEq, Repr, Inhabited

/-- `Service`, as far as resources are concerned. `admitted` counts the clients' requests that hold
shared admission; a close under way holds it exclusively. A terminal is open until it exits. -/
structure Service where
  serverId : String
  draining : Bool := false
  owners : List (Resource × String) := []
  runs : List (String × RunHandle) := []
  terminals : List (String × Bool) := []
  admitted : ℕ := 0
  closing : Option Closing := none
  deriving DecidableEq, Repr, Inhabited

/-- `validate_resources`. -/
def validateResources (owner : String) (resources : List Resource) : Except String Unit :=
  bailIf (owner = "" ∨ 128 < owner.utf8ByteSize ∨ 128 < resources.length ∨
    ∃ r ∈ resources, r.id = "" ∨ 256 < r.id.utf8ByteSize) "无效的资源关闭请求"

namespace Service

/-- `ClaimResources`. -/
def claim (s : Service) (owner : String) (resources : List Resource) : Except String Service := do
  validateResources owner resources
  bailIf s.draining "后台正在停止，请重新连接"
  let new := (resources.filter fun r => (s.owners.lookup r).isNone).length
  bailIf (4096 < s.owners.length + new) "会话资源归属数量已达上限"
  .ok { s with owners := resources.foldl (fun owners r => Assoc.put r owner owners) s.owners }

/-- The resource is alive. -/
def live (s : Service) : Resource → Bool
  | .agentSession id =>
    (s.runs.lookup id).any fun run => !run.closed && (run.sessionOpen || !run.safeToClose)
  | .terminal id => s.terminals.lookup id = some true

/-- The loop of `AdoptResources`, with the resources that were adopted. -/
def adoptEach (previous owner : String) : Service → List Resource → Service × List Resource
  | s, [] => (s, [])
  | s, r :: rest =>
    if s.live r ∧ (s.owners.lookup r = some previous ∨ s.owners.lookup r = some owner) then
      let (s, adopted) := adoptEach previous owner { s with owners := Assoc.put r owner s.owners } rest
      (s, r :: adopted)
    else adoptEach previous owner s rest

/-- `AdoptResources`. -/
def adopt (s : Service) (serverId previous owner : String) (resources : List Resource) :
    Except String (Service × List Resource) := do
  validateResources owner resources
  bailIf (previous = "" ∨ 128 < previous.utf8ByteSize) "无效的资源归属"
  if serverId ≠ s.serverId then .ok (s, []) else .ok (adoptEach previous owner s resources)

/-- `CloseOwnedResources`, up to its loop. -/
def closeOwned (s : Service) (serverId owner : String) (resources : List Resource) :
    Except String Service := do
  validateResources owner resources
  if serverId ≠ s.serverId then .ok s
  else .ok { s with closing := some { owner, remaining := resources } }

/-- `runtime::close`, up to the wait for its answer. `known` tells that the database has the
session. -/
def askClose (s : Service) (known : Bool) (id owner : String) (run : RunHandle) :
    Except String Service := do
  bailIf (!known) "会话不存在"
  bailIf run.closed "channel closed"
  .ok { s with runs := Assoc.put id { run with cancels := run.cancels ++ [some owner] } s.runs }

/-- One turn of the loop of `CloseOwnedResources`, up to the wait for a session's actor. An error
ends the request. -/
def closeNext (s : Service) (known : Bool) : Service :=
  match s.closing with
  | some { owner, remaining := r :: rest, waiting := false } =>
    let next := some { owner, remaining := rest }
    if s.owners.lookup r ≠ some owner then { s with closing := next }
    else match r with
      | .terminal id =>
        { s with
          terminals := Assoc.drop id s.terminals
          owners := Assoc.drop r s.owners
          closing := next }
      | .agentSession id =>
        match s.runs.lookup id with
        | none => { s with owners := Assoc.drop r s.owners, closing := next }
        | some run =>
          match s.askClose known id owner run with
          | .ok s => { s with closing := some { owner, remaining := r :: rest, waiting := true } }
          | .error _ => { s with closing := none }
  | some { remaining := [], .. } => { s with closing := none }
  | _ => s

/-- The actor's answer to a close that is waited for. -/
def closeAnswered (s : Service) (ok : Bool) : Service :=
  match s.closing with
  | some { owner, remaining := r :: rest, waiting := true } =>
    if ok then
      { s with owners := Assoc.drop r s.owners, closing := some { owner, remaining := rest } }
    else { s with closing := none }
  | _ => s

/-- The close waits for the actor of a session. -/
def waitsFor (s : Service) (id : String) : Bool :=
  match s.closing with
  | some { remaining := r :: _, waiting := true, .. } => r = .agentSession id
  | _ => false

/-- The actor of a session takes the oldest close before it: its session is over, and requests
still before it are dropped. `ok` tells that the database took the end. The close that is waited
for is the newest. -/
def actorCancels (s : Service) (id : String) (ok : Bool) : Service :=
  match s.runs.lookup id with
  | some { cancels := _ :: more, .. } =>
    let gone := { s with runs := Assoc.drop id s.runs }
    if s.waitsFor id then gone.closeAnswered (ok && more.isEmpty) else gone
  | _ => s

/-- `forget`. -/
def forget (s : Service) (r : Resource) : Service := { s with owners := Assoc.drop r s.owners }

end Service

/-- What happens around the ownership map. `known` and `ok` are outcomes of the database. -/
inductive LifecycleOp where
  | claim (owner : String) (resources : List Resource)
  | adopt (serverId previous owner : String) (resources : List Resource)
  | closeOwned (serverId owner : String) (resources : List Resource)
  | closeNext (known : Bool)
  | closeTimeout
  | actorCancels (id : String) (ok : Bool)
  | request
  | respond
  | forget (resource : Resource)
  | clientCloses (id : String)
  | drain
  | opened (id : String)
  | flagged (id : String) (sessionOpen safeToClose : Bool)
  | died (id : String)
  | terminalOpened (id : String)
  | terminalExited (id : String)
  | terminalClosed (id : String)
  deriving DecidableEq, Repr, Inhabited

namespace Service

/-- The admission an operation needs is free: shared admission unless a close is under way,
exclusive admission when nobody has any. -/
def admits (s : Service) : LifecycleOp → Bool
  | .claim .. | .adopt .. | .request => s.closing.isNone
  | .closeOwned .. | .drain => s.closing.isNone && s.admitted = 0
  | .respond | .forget _ | .clientCloses _ | .opened _ | .terminalOpened _ | .terminalClosed _ =>
    0 < s.admitted
  | _ => true

/-- The handle of a session's actor is changed. -/
def updateRun (s : Service) (id : String) (f : RunHandle → RunHandle) : Service :=
  match s.runs.lookup id with
  | some run => { s with runs := Assoc.put id (f run) s.runs }
  | none => s

/-- An operation whose admission is free. -/
def apply (s : Service) : LifecycleOp → Except String Service
  | .claim owner resources => s.claim owner resources
  | .adopt serverId previous owner resources =>
    (s.adopt serverId previous owner resources).map (·.1)
  | .closeOwned serverId owner resources => s.closeOwned serverId owner resources
  | .closeNext known => .ok (s.closeNext known)
  | .closeTimeout => .ok (s.closeAnswered false)
  | .actorCancels id ok => .ok (s.actorCancels id ok)
  | .request => .ok { s with admitted := s.admitted + 1 }
  | .respond => .ok { s with admitted := s.admitted - 1 }
  | .forget r => .ok (s.forget r)
  | .clientCloses id =>
    .ok (s.updateRun id fun run => { run with cancels := run.cancels ++ [none] })
  | .drain => .ok { s with draining := true }
  | .opened id =>
    .ok (if (s.runs.lookup id).isSome then s else { s with runs := Assoc.put id {} s.runs })
  | .flagged id sessionOpen safeToClose =>
    .ok (s.updateRun id fun run => { run with sessionOpen, safeToClose })
  | .died id => .ok (s.updateRun id fun run => { run with closed := true })
  | .terminalOpened id =>
    .ok (if (s.terminals.lookup id).isSome then s
      else { s with terminals := Assoc.put id true s.terminals })
  | .terminalExited id =>
    .ok (if (s.terminals.lookup id).isSome then
      { s with terminals := Assoc.put id false s.terminals } else s)
  | .terminalClosed id => .ok { s with terminals := Assoc.drop id s.terminals }

/-- An operation waits for its admission; a refused one changes nothing. -/
def step (s : Service) (o : LifecycleOp) : Service :=
  if s.admits o then Runs.attempt apply s o else s

end Service

end LatteWork
