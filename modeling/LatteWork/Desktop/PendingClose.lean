import LatteWork.Desktop.Quit
import LatteWork.Wire.Json

/-!
# The quit journal

What the desktop could not close when it quit is written down, one file for each desktop that quit.
When a host is connected again, its resources are closed if it is the local host, and taken over
otherwise, and its entries leave the journal.
-/

namespace LatteWork

open Fallible

structure HostIntent where
  host : HostTarget
  serverId : String
  resources : List Resource
  deriving DecidableEq, Repr, Inhabited

structure Intent where
  ownerId : String
  hosts : List HostIntent
  deriving DecidableEq, Repr, Inhabited

def Resource.toJson : Resource → Json
  | agentSession id => .obj [("kind", .str "agent_session"), ("id", .str id)]
  | terminal id => .obj [("kind", .str "terminal"), ("id", .str id)]

def SshAuthMode.toJson : SshAuthMode → Json
  | none => .str "none"
  | identityFile => .str "identity_file"
  | password => .str "password"

def HostTarget.toJson (h : HostTarget) : Json :=
  .obj [("id", .str h.id), ("name", .str h.name), ("ssh", .opt .str h.ssh),
    ("server_path", .opt .str h.serverPath), ("auth", h.auth.toJson),
    ("identity_file", .opt .str h.identityFile), ("port", .opt .nat h.port)]

def HostIntent.toJson (h : HostIntent) : Json :=
  .obj [("host", h.host.toJson), ("server_id", .str h.serverId),
    ("resources", .arr (h.resources.map Resource.toJson))]

def Intent.toJson (i : Intent) : Json :=
  .obj [("owner_id", .str i.ownerId), ("hosts", .arr (i.hosts.map HostIntent.toJson))]

/-- `LIMIT`. -/
def journalLimit : ℕ := 1024 * 1024

/-- A file of the journal: its size and what it decodes to, or something that is not a regular
file. -/
inductive JournalFile where
  | regular (size : ℕ) (content : Except String Intent)
  | special

/-- How the disk fails a write: before the new file is in place, or behind that. -/
inductive WriteFault where
  | kept (e : String)
  | replaced (e : String)
  deriving DecidableEq, Repr, Inhabited

/-- The directory of the journal, with why it cannot be locked and read, and the writes that fail. -/
structure Journal where
  files : OrdMap String JournalFile := OrdMap.empty
  lockError : Option String := none
  faults : String → Option WriteFault := fun _ => none

/-- `same_target`. -/
def sameTarget (a b : HostTarget) : Bool :=
  a.id = b.id && a.ssh = b.ssh && a.port = b.port && a.serverPath = b.serverPath &&
    a.identityFile = b.identityFile && a.auth = b.auth

/-- `path.extension() == "json"`. -/
def isJson (name : String) : Bool := ".json".toList.isSuffixOf name.toList && name ≠ ".json"

namespace Journal

section

-- `Uuid::parse_str`, as the text the `Uuid` is written as
variable (uuid : String → Option String)

def path (owner : String) : String := owner ++ ".json"

/-- `read`. -/
def read (j : Journal) (name : String) : Except String Intent :=
  match j.files.find? name with
  | none => .error "No such file or directory"
  | some .special => .error "关闭记录必须为普通文件"
  | some (.regular size content) => do
    bailIf (journalLimit < size) "关闭记录超过大小限制"
    let intent ← content
    let owner ← orError "invalid uuid" (uuid intent.ownerId)
    bailIf (name ≠ path owner ∨ 128 < intent.hosts.length ∨
      ∃ h ∈ intent.hosts, 128 < h.resources.length) "无效关闭记录"
    .ok intent

/-- `write`. -/
def write (j : Journal) (intent : Intent) : Except String Unit × Journal :=
  match uuid intent.ownerId with
  | none => (.error "invalid uuid", j)
  | some owner =>
    match j.files.find? (path owner) with
    | some .special => (.error "关闭记录必须为普通文件", j)
    | _ =>
      if intent.hosts = [] then
        match j.faults (path owner) with
        | some (.kept e) => (.error e, j)
        | _ => (.ok (), { j with files := j.files.erase (path owner) })
      else if journalLimit < intent.toJson.size then (.error "关闭记录超过大小限制", j)
      else
        let file := JournalFile.regular intent.toJson.size (.ok intent)
        let written := { j with files := j.files.insert (path owner) file }
        match j.faults (path owner) with
        | none => (.ok (), written)
        | some (.kept e) => (.error e, j)
        | some (.replaced e) => (.error e, written)

/-- What is sent for an entry of the host: its resources are taken over, or closed on the local
host. -/
def settle (owner : String) (host : HostTarget) (intent : Intent) (item : HostIntent) (client : Client)
    (w : World) : Except String (List Resource) × Client × World :=
  match host.ssh with
  | some _ =>
    w.adoptResources host.id client item.serverId intent.ownerId owner item.resources
  | none =>
    let (result, client, w) :=
      w.closeOwnedResources host.id client item.serverId intent.ownerId item.resources
    (result.map fun _ => [], client, w)

def settleAll (owner : String) (host : HostTarget) (intent : Intent) :
    List HostIntent → Client → World → Except String (List Resource) × Client × World
  | [], client, w => (.ok [], client, w)
  | item :: rest, client, w =>
    match settle owner host intent item client w with
    | (.error e, client, w) => (.error e, client, w)
    | (.ok adopted, client, w) =>
      let (result, client, w) := settleAll owner host intent rest client w
      (result.map (adopted ++ ·), client, w)

/-- One file of `drain_directory`. -/
def drainFile (owner : String) (host : HostTarget) (name : String) (j : Journal) (client : Client)
    (w : World) : Except String (List Resource) × Journal × Client × World :=
  match j.read uuid name with
  | .error e => (.error e, j, client, w)
  | .ok intent =>
    match settleAll owner host intent (intent.hosts.filter (sameTarget ·.host host)) client w with
    | (.error e, client, w) => (.error e, j, client, w)
    | (.ok adopted, client, w) =>
      let (result, j) :=
        j.write uuid { intent with hosts := intent.hosts.filter (!sameTarget ·.host host) }
      (result.map fun _ => adopted, j, client, w)

def drainFiles (owner : String) (host : HostTarget) :
    List String → Journal → Client → World →
      Except String (List Resource) × Journal × Client × World
  | [], j, client, w => (.ok [], j, client, w)
  | name :: rest, j, client, w =>
    match drainFile uuid owner host name j client w with
    | (.error e, j, client, w) => (.error e, j, client, w)
    | (.ok adopted, j, client, w) =>
      let (result, j, client, w) := drainFiles owner host rest j client w
      (result.map (adopted ++ ·), j, client, w)

/-- `drain_directory`. -/
def drainDirectory (owner : String) (host : HostTarget) (j : Journal) (client : Client) (w : World) :
    Except String (List Resource) × Journal × Client × World :=
  match j.lockError with
  | some e => (.error e, j, client, w)
  | none =>
    let names := j.files.keys.filter isJson
    if 128 < names.length then (.error "待关闭记录数量超过限制", j, client, w)
    else drainFiles uuid owner host names j client w

end

end Journal

namespace Connections

variable (uuid : String → Option String)

/-- What `persist` writes down: the claimed resources of each instance, with its host. -/
def intent (s : Connections) : Except String Intent := do
  let hosts ← s.grouped.entries.mapM fun g => do
    let host ← orError "缺少关闭记录的主机信息" (s.hostTargets.lookup (ofLex g.1).1)
    .ok { host, serverId := (ofLex g.1).2, resources := g.2 }
  .ok { ownerId := s.owner, hosts }

/-- `persist`. -/
def persist (s : Connections) (j : Journal) : Except String Unit × Journal :=
  match s.intent with
  | .error e => (.error e, j)
  | .ok intent =>
    match j.lockError with
    | some e => (.error e, j)
    | none => j.write uuid intent

/-- A resource is taken over from a desktop that quit. -/
def adopt (s : Connections) (host server : String) (r : Resource) : Connections :=
  let s := { s with ownedInstances := s.ownedInstances.insert (host, r) server }
  match r with
  | .agentSession id => { s with turns := s.turns.insert (host, id) "open" }
  | .terminal id => { s with terminals := s.terminals.insert (host, id) () }

/-- `drain`. -/
def drain (s : Connections) (j : Journal) (host : HostTarget) (client : Client) (w : World) :
    Except String (List Resource) × Connections × Journal × Client × World :=
  match j.drainDirectory uuid s.owner host client w with
  | (.error e, j, client, w) => (.error e, s, j, client, w)
  | (.ok adopted, j, client, w) =>
    (.ok adopted, adopted.foldl (·.adopt host.id client.serverId ·) s, j, client, w)

end Connections

end LatteWork
