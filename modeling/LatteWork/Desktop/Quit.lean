import LatteWork.Desktop.Hosts
import LatteWork.Lib.OrdMap
import Mathlib.Data.List.Sort
import Mathlib.Data.Prod.Lex

/-!
# Quitting the desktop

Quitting closes the sessions and terminals the desktop owns: those it claimed on an instance of a
host in one batch for each instance, and what is left one by one.
-/

namespace LatteWork

/-- `Connections`. `ownedInstances` has the instance each resource was claimed on. -/
structure Connections where
  owner : String
  clients : HashMap String Client := ∅
  hostTargets : HashMap String HostTarget := ∅
  ownedInstances : HashMap (String × Resource) String := ∅
  turns : HashMap (String × String) String := ∅
  terminals : HashMap (String × String) Unit := ∅

/-- What runs over while quitting: the desktop, its hosts, and what went wrong. -/
structure Quit where
  desktop : Connections
  world : World
  failedHosts : List String := []
  errors : List String := []

namespace Connections

def withClient (s : Connections) (host : String) (client : Client) : Connections :=
  { s with clients := s.clients.insert host client }

/-- `guarded_close`. A resource that was claimed is closed on the instance it was claimed on. -/
def guardedClose (s : Connections) (w : World) (host : String) (client : Client)
    (request : HostRequest) : Except String HostReply × Client × World :=
  let close (r : Resource) : Except String HostReply × Client × World :=
    match s.ownedInstances.lookup (host, r) with
    | some server =>
      let (result, client, w) := w.closeOwnedResources host client server s.owner [r]
      (result.map fun _ => .closed, client, w)
    | none => w.exchange host client request
  match request with
  | .closeAgentSession id => close (.agentSession id)
  | .closeTerminal id => close (.terminal id)
  | _ => (.error "退出清理只允许关闭资源", client, w)

/-- `close_response`. -/
def closeResponse : HostReply → Except String Unit
  | .closed => .ok ()
  | .error message => .error message
  | _ => .error "关闭响应格式不匹配"

/-- The end of `close_resource`: on a fresh bridge. -/
def closeAfresh (s : Connections) (w : World) (host : String) (request : HostRequest) :
    Except String Unit × Connections × World :=
  match w.connect host with
  | (.error e, w) => (.error e, s, w)
  | (.ok client, w) =>
    let (reply, client, w) := s.guardedClose w host client request
    (reply.bind closeResponse, s.withClient host client, w)

/-- `close_resource`. -/
def closeResource (s : Connections) (w : World) (host : String) (request : HostRequest) :
    Except String Unit × Connections × World :=
  match request with
  | .closeOwned .. | .adopt .. => (.error "退出清理只允许关闭资源", s, w)
  | _ =>
    match s.clients.lookup host with
    | none => s.closeAfresh w host request
    | some client =>
      if client.broken then s.closeAfresh w host request
      else
        match s.guardedClose w host client request with
        | (.ok reply, client, w) => (closeResponse reply, s.withClient host client, w)
        | (.error _, client, w) => (s.withClient host client).closeAfresh w host request

/-- The resources claimed on each instance of a host. -/
def grouped (s : Connections) : OrdMap (String ×ₗ String) (List Resource) :=
  OrdMap.collect (s.ownedInstances.entries.map fun e => (toLex (e.1.1, e.2), e.1.2))

/-- The resources claimed on one instance after the other: those of the local host first. -/
def batches (s : Connections) : List ((String ×ₗ String) × List Resource) :=
  s.grouped.entries.insertionSort fun a b =>
    toLex (decide ((ofLex a.1).1 ≠ "local"), a.1) ≤ toLex (decide ((ofLex b.1).1 ≠ "local"), b.1)

/-- A resource is no longer tracked as claimed, nor as a turn or a terminal. -/
def release (s : Connections) (host : String) (r : Resource) : Connections :=
  let s := { s with ownedInstances := s.ownedInstances.erase (host, r) }
  match r with
  | .agentSession id => { s with turns := s.turns.erase (host, id) }
  | .terminal id => { s with terminals := s.terminals.erase (host, id) }

/-- The keys of a table, those of the local host first. -/
def localFirst {β : Type} (table : HashMap (String × String) β) : List (String × String) :=
  table.keys.insertionSort fun a b =>
    toLex (decide (a.1 ≠ "local"), toLex a) ≤ toLex (decide (b.1 ≠ "local"), toLex b)

end Connections

namespace Quit

def fail (q : Quit) (host e : String) : Quit :=
  { q with failedHosts := host :: q.failedHosts, errors := q.errors ++ [host ++ "：" ++ e] }

/-- One batch of `stop_owned`, over a bridge of its own. -/
def stopBatch (q : Quit) (batch : (String ×ₗ String) × List Resource) : Quit :=
  let (host, server) := ofLex batch.1
  match q.world.connect host with
  | (.error e, w) => { q with world := w }.fail host e
  | (.ok client, w) =>
    match w.closeOwnedResources host client server q.desktop.owner batch.2 with
    | (.error e, _, w) => { q with world := w }.fail host e
    | (.ok (), _, w) =>
      { q with world := w, desktop := batch.2.foldl (·.release host ·) q.desktop }

/-- One turn or terminal of `stop_owned`. What a failed host has is left alone. -/
def stopOne (q : Quit) (host : String) (request : HostRequest)
    (settle : Connections → Connections) : Quit :=
  if host ∈ q.failedHosts then q
  else
    match q.desktop.closeResource q.world host request with
    | (.ok (), s, w) => { q with desktop := settle s, world := w }
    | (.error e, s, w) => { q with desktop := s, world := w }.fail host e

def stopTurn (q : Quit) (key : String × String) : Quit :=
  q.stopOne key.1 (.closeAgentSession key.2) fun s => { s with turns := s.turns.erase key }

def stopTerminal (q : Quit) (key : String × String) : Quit :=
  q.stopOne key.1 (.closeTerminal key.2) fun s => { s with terminals := s.terminals.erase key }

/-- The loops of `stop_owned`. -/
def run (s : Connections) (w : World) : Quit :=
  let q : Quit := s.batches.foldl stopBatch { desktop := s, world := w }
  let q := (Connections.localFirst q.desktop.turns).foldl stopTurn q
  (Connections.localFirst q.desktop.terminals).foldl stopTerminal q

def result (q : Quit) : Except String Unit :=
  if q.errors = [] then .ok () else .error ("\n".intercalate q.errors)

end Quit

/-- `stop_owned`. -/
def stopOwned (s : Connections) (w : World) : Except String Unit × Connections × World :=
  let q := Quit.run s w
  (q.result, q.desktop, q.world)

end LatteWork
