import LatteWork.Lib.OrdMap
import LatteWork.Lib.Program
import LatteWork.Runtime.Config
import Mathlib.Data.List.Dedup
import Mathlib.Data.List.Sort

/-!
# Provider configuration

The file of providers and of the agents bound to them. The host and the App each keep one, in the
same format: what they share is here, what they do with it is in their own modules.
-/

namespace LatteWork

open Fallible

/-- `Record`. `synced` marks a record that another machine installed. -/
structure ProviderRecord where
  synced : Bool := false
  metadata : Provider
  credential : String
  deriving DecidableEq, Repr, Inhabited

/-- `Config`, what a file decodes to. `bindings` maps an agent to its provider, `hostBindings` a
remote host to its agents. -/
structure ProviderConfig where
  schema : ℕ := 2
  bindings : OrdMap String String := OrdMap.empty
  activeId : Option String := none
  hostBindings : OrdMap String (OrdMap String String) := OrdMap.empty
  providers : List ProviderRecord := []
  deriving DecidableEq, Inhabited

/-- `AgentProviderBinding`. -/
structure AgentProviderBinding where
  agent : String
  providerId : String
  providerRevision : String
  deriving DecidableEq, Repr, Inhabited

/-- `Response::Providers`. -/
structure Catalog where
  providers : List Provider
  bindings : List AgentProviderBinding
  deriving DecidableEq, Repr, Inhabited

/-- `ProviderSnapshot`. -/
structure ProviderSnapshot where
  provider : Provider
  credential : String
  deriving DecidableEq, Repr, Inhabited

/-- `ProviderDraft`. -/
structure ProviderDraft where
  id : Option String := none
  name : String
  protocol : ProviderProtocol
  baseUrl : String
  model : String
  models : List String := []
  modelLabels : List (String × String) := []
  models1m : List String := []
  auth : ProviderAuth
  credential : Option String := none
  deriving DecidableEq, Repr, Inhabited

/-- The code the stores call: `Url::parse`, and the length of `to_vec_pretty`. -/
structure ProviderServices where
  parseUrl : String → Option Url
  prettySize : ProviderConfig → ℕ

/-- `MAX_CONFIG`. -/
def maxConfig : ℕ := 128 * 1024

/-- `trim_end_matches('/')`. -/
def trimEndSlashes (s : String) : String :=
  String.ofList ((s.toList.reverse.dropWhile (· = '/')).reverse)

namespace ProviderDraft

/-- `sort` and `dedup`. -/
def sortDedup (l : List String) : List String := (l.insertionSort (· ≤ ·)).dedup

/-- The draft as `save` reads it. -/
def normalize (d : ProviderDraft) : ProviderDraft :=
  { d with
    name := trim d.name
    baseUrl := trimEndSlashes (trim d.baseUrl)
    model := trim d.model
    models := sortDedup ((d.models.map trim).filter (· ≠ ""))
    models1m := sortDedup (d.models1m.map trim) }

/-- The provider a draft describes. -/
def metadata (d : ProviderDraft) (id revision : String) (hasCredential : Bool) : Provider where
  id := id
  name := d.name
  protocol := d.protocol
  baseUrl := d.baseUrl
  model := d.model
  models := d.models
  modelLabels := d.modelLabels
  models1m := d.models1m
  auth := d.auth
  hasCredential := hasCredential
  revision := revision

end ProviderDraft

namespace ProviderConfig

/-- The record with an id. -/
def find (c : ProviderConfig) (id : String) : Option ProviderRecord :=
  c.providers.find? (·.metadata.id = id)

/-- Every binding, the local ones first. -/
def associations (c : ProviderConfig) : List (String × String) :=
  c.bindings.entries ++ c.hostBindings.entries.flatMap (·.2.entries)

/-- `bound`. -/
def bound (c : ProviderConfig) (id : String) : Bool := c.associations.any (·.2 = id)

/-- Replace the record with the same id, or add it. -/
def putRecord (record : ProviderRecord) : List ProviderRecord → List ProviderRecord
  | [] => [record]
  | r :: rest => if r.metadata.id = record.metadata.id then record :: rest else r :: putRecord record rest

def put (c : ProviderConfig) (record : ProviderRecord) : ProviderConfig :=
  { c with providers := putRecord record c.providers }

/-- The synced records that a binding uses, and the others. -/
def prune (c : ProviderConfig) : ProviderConfig :=
  { c with providers := c.providers.filter fun r => !r.synced || c.bound r.metadata.id }

/-- `list_bindings`, `catalog`. None where `expect` stops the process. -/
def catalog (c : ProviderConfig) (bindings : List (String × String)) : Option Catalog := do
  let bindings ← bindings.mapM fun (agent, id) => (c.find id).map fun r =>
    { agent, providerId := id, providerRevision := r.metadata.revision : AgentProviderBinding }
  pure { providers := c.providers.map (·.metadata), bindings }

/-- Give the records of an old file that have no revision the next of the given ones. -/
def mintRevisions : List String → List ProviderRecord → List ProviderRecord
  | _, [] => []
  | fresh, r :: rest =>
    if r.metadata.revision = "" then
      { r with metadata := { r.metadata with revision := fresh.head?.getD "" } } ::
        mintRevisions fresh.tail rest
    else r :: mintRevisions fresh rest

/-- What opening makes of a file of schema 1: its one selection becomes a binding of `claude`. -/
def migrate (fresh : List String) (c : ProviderConfig) : ProviderConfig :=
  if c.schema = 1 then
    { c with
      schema := 2
      activeId := none
      bindings := match c.activeId with
        | some id =>
          if c.providers.any fun r =>
              r.metadata.id = id && r.metadata.protocol = .anthropicMessages then
            c.bindings.insert "claude" id
          else c.bindings
        | none => c.bindings
      providers := mintRevisions fresh c.providers }
  else c

/-- The records of `validate_config`, with the ids before them. -/
def validateRecords (svc : ProviderServices) : List String → List ProviderRecord →
    Except String Unit
  | _, [] => .ok ()
  | ids, r :: rest => do
    validateProvider svc.parseUrl r.metadata r.credential
    bailIf (r.metadata.id ∈ ids) "Provider ID 重复"
    validateRecords svc (r.metadata.id :: ids) rest

/-- `validate_config`, with the store's own checks of a host and of a binding. -/
def validateWith (svc : ProviderServices) (host : String → Except String Unit)
    (binding : String → Option ProviderRecord → Except String Unit) (c : ProviderConfig) :
    Except String Unit := do
  bailIf (c.schema ≠ 2 ∨ 16 < c.providers.length) "Provider 配置版本或数量无效（最多 16 个）"
  validateRecords svc [] c.providers
  bailIf (256 < c.hostBindings.entries.length) "主机关联数量超出限制"
  c.hostBindings.keys.forM host
  c.associations.forM fun (agent, id) => binding agent (c.find id)

end ProviderConfig

/-- `ProviderStore`: the configuration in memory, and what its file decodes to. -/
structure ProviderStore where
  file : Option ProviderConfig
  config : ProviderConfig

/-- How the file system answers a `persist`: the errors of the temporary file and of its rename. -/
structure PersistIo where
  write : Option String := none
  rename : Option String := none
  deriving DecidableEq, Repr, Inhabited

abbrev ProviderOp (α : Type) := Prog ProviderStore String α

namespace ProviderStore

open Prog

/-- What the operating system refuses. -/
def outcome (e : Option String) : ProviderOp Unit :=
  match e with
  | none => pure ()
  | some e => fail e

/-- `persist`, up to its answer. -/
def persist (svc : ProviderServices) (validate : ProviderConfig → Except String Unit)
    (io : PersistIo) (next : ProviderConfig) : ProviderOp Unit := do
  lift (validate next)
  bailIf (maxConfig < svc.prettySize next) "Provider 配置超出大小限制"
  outcome io.write
  outcome io.rename
  update fun s => { s with file := some next }
  update fun s => { s with config := next }

/-- The record a draft replaces. -/
def existing (draft : ProviderDraft) : ProviderOp (Option ProviderRecord) := do
  let s ← current
  match draft.id with
  | none => pure none
  | some id => do
    let record ← orError "Provider 不存在" (s.config.find id)
    pure (some record)

end ProviderStore

end LatteWork
