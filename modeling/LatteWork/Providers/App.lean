import LatteWork.Providers.Config

/-!
# The providers of the App

The configuration of the desktop App, for its local agents and for those of its hosts. The agents
need not be installed here: a binding names an agent, and no protocol is asked for.
-/

namespace LatteWork

open Fallible Prog

/-- `validate_id`. -/
def validateAppId (id : String) : Except String Unit :=
  bailIf (id = "" ∨ 255 < id.utf8ByteSize ∨ id.toList.any Store.isControl) "主机或 Agent ID 无效"

namespace AppProviders

/-- `validate_config`. -/
def validateConfig (svc : ProviderServices) (c : ProviderConfig) : Except String Unit :=
  c.validateWith svc
    (fun host => do
      validateAppId host
      bailIf (host = "local") "本机关联应使用 bindings 字段")
    fun agent record => do
      validateAppId agent
      bailIf record.isNone "关联的 Provider 不存在"

/-- `read_config`, on what the file decodes to. -/
def readConfig (svc : ProviderServices) (fresh : List String) (file : ProviderConfig) :
    Except String ProviderConfig := do
  let config := file.migrate fresh
  validateConfig svc config
  .ok config

/-- `bindings`. -/
def bindings (s : ProviderStore) (host : String) : Option (OrdMap String String) :=
  if host = "local" then some s.config.bindings else s.config.hostBindings.find? host

/-- `list`. -/
def list (s : ProviderStore) : Option Catalog := s.config.catalog s.config.associations

/-- `list_for_host`. -/
def listForHost (s : ProviderStore) (host : String) : Except String (Option Catalog) := do
  validateAppId host
  .ok (s.config.catalog ((bindings s host).getD OrdMap.empty).entries)

/-- `snapshot_for_host`. -/
def snapshotForHost (s : ProviderStore) (host agent : String) :
    Except String (Option ProviderSnapshot) := do
  validateAppId host
  validateAppId agent
  match (bindings s host).bind (·.find? agent) with
  | none => .ok none
  | some id => do
    let record ← orError "关联的 Provider 不存在" (s.config.find id)
    .ok (some { provider := record.metadata, credential := record.credential })

section

variable (svc : ProviderServices) (io : PersistIo)

/-- `persist`. -/
def persist (next : ProviderConfig) : ProviderOp (Option Catalog) := do
  ProviderStore.persist svc (validateConfig svc) io next
  let s ← current
  pure (list s)

/-- `open`: the App's own file, or the first time the one of its earlier daemon, which is copied. -/
def «open» (fresh : List String) (file legacy : Option ProviderConfig) :
    Except String ProviderStore :=
  match file with
  | some file => do
    let config ← readConfig svc fresh file
    .ok { file := some file, config }
  | none => do
    let config ← match legacy with
      | some legacy => readConfig svc fresh legacy
      | none => .ok {}
    let (result, s) := (persist svc io config).run { file := none, config }
    let _ ← result
    .ok s

/-- `bind`. -/
def bind (host agent : String) (id : Option String) : ProviderOp (Option Catalog) := do
  lift (validateAppId host)
  lift (validateAppId agent)
  let s ← current
  let change (bindings : OrdMap String String) : OrdMap String String := match id with
    | some id => bindings.insert agent id
    | none => bindings.erase agent
  let next := if host = "local" then { s.config with bindings := change s.config.bindings }
    else { s.config with
      hostBindings := s.config.hostBindings.insert host
        (change ((s.config.hostBindings.find? host).getD OrdMap.empty)) }
  let _ ← persist svc io next
  let s ← current
  lift (listForHost s host)

/-- `forget_host`. -/
def forgetHost (host : String) : ProviderOp Unit := do
  lift (validateAppId host)
  let s ← current
  let next := if host = "local" then { s.config with bindings := OrdMap.empty }
    else { s.config with hostBindings := s.config.hostBindings.erase host }
  let _ ← persist svc io next
  pure ()

/-- `delete`. -/
def delete (id : String) : ProviderOp (Option Catalog) := do
  let s ← current
  let unbind (bindings : OrdMap String String) := bindings.retain (·.2 ≠ id)
  persist svc io { s.config with
    providers := s.config.providers.filter (·.metadata.id ≠ id)
    bindings := unbind s.config.bindings
    hostBindings := (s.config.hostBindings.mapValues unbind).retain (·.2.entries ≠ [])
    activeId := if s.config.activeId = some id then none else s.config.activeId }

/-- `save`. The new id and the revision are the fresh uuids. -/
def save (draft : ProviderDraft) (fresh revision : String) : ProviderOp (Option Catalog) := do
  let draft := draft.normalize
  let s ← current
  let existing ← ProviderStore.existing draft
  bailIf (existing.any fun old => draft.auth ≠ .none && draft.credential.isNone &&
    (old.metadata.baseUrl ≠ draft.baseUrl || old.metadata.auth ≠ draft.auth))
    "更改地址或认证方式时，请重新填写凭据"
  bailIf (existing.any fun old => old.metadata.protocol ≠ draft.protocol &&
    s.config.bound old.metadata.id) "请先解除 Provider 关联，再更改接口协议"
  let credential ← if draft.auth = .none then pure ""
    else orError "请填写 Provider 凭据" (draft.credential.or (existing.map (·.credential)))
  let metadata := draft.metadata (draft.id.getD fresh) revision (credential ≠ "")
  lift (validateProvider svc.parseUrl metadata credential)
  persist svc io (s.config.put { metadata, credential })

end

end AppProviders

/-- `ModelEndpoint`: where the models of a provider are asked for, and with what. -/
structure ModelEndpoint where
  url : Url
  protocol : ProviderProtocol
  auth : ProviderAuth
  credential : String
  deriving DecidableEq, Repr, Inhabited

/-- The path of the model list below a base path. -/
def modelsPath (protocol : ProviderProtocol) (base : String) : String :=
  let path := trimEndSlashes base
  if path = "" then "/v1/models"
  else if "/v1".toList <:+ path.toList ∨ protocol ≠ .anthropicMessages then path ++ "/models"
  else path ++ "/v1/models"

/-- `ModelEndpoint::new`. -/
def ModelEndpoint.ofBase (svc : ProviderServices) (base : String) (protocol : ProviderProtocol)
    (auth : ProviderAuth) (credential : String) : Except String ModelEndpoint := do
  let url ← orError "请填写有效的 Base URL" (svc.parseUrl (trim base))
  bailIf (url.scheme ∉ ["http", "https"] ∨ url.host.isNone ∨ url.username ≠ "" ∨
    url.password.isSome ∨ url.query.isSome ∨ url.fragment.isSome)
    "Base URL 必须是无凭据和查询参数的 HTTP(S) 地址"
  bailIf (8192 < credential.utf8ByteSize ∨ credential.toList.any Store.isControl) "API Key 格式无效"
  .ok { url := { url with path := modelsPath protocol url.path }, protocol, auth, credential }

namespace AppProviders

/-- The credential of `model_endpoint`: none, the draft's, or that of the record it would replace. -/
def endpointCredential (s : ProviderStore) (draft : ProviderDraft) : Except String String :=
  if draft.auth = .none then .ok ""
  else match draft.credential with
    | some value => .ok value
    | none => do
      let old ← orError "请填写 API Key" (draft.id.bind s.config.find)
      bailIf (trimEndSlashes old.metadata.baseUrl ≠ trimEndSlashes draft.baseUrl ∨
        old.metadata.auth ≠ draft.auth ∨ old.metadata.protocol ≠ draft.protocol)
        "地址或协议已更改，请重新填写 API Key 后获取模型"
      .ok old.credential

/-- `model_endpoint`. -/
def modelEndpoint (svc : ProviderServices) (s : ProviderStore) (draft : ProviderDraft) :
    Except String ModelEndpoint := do
  let credential ← endpointCredential s draft
  ModelEndpoint.ofBase svc draft.baseUrl draft.protocol draft.auth credential

end AppProviders

/-- A request to the store of the App. -/
inductive AppProviderOp where
  | save (draft : ProviderDraft) (fresh revision : String)
  | bind (host agent : String) (id : Option String)
  | forgetHost (host : String)
  | delete (id : String)
  deriving DecidableEq, Repr, Inhabited

namespace AppProviders

/-- One request, none of whose answers is left out but the one that has none. -/
def perform (svc : ProviderServices) (io : PersistIo) :
    AppProviderOp → ProviderOp (Option Catalog)
  | .save draft fresh revision => save svc io draft fresh revision
  | .bind host agent id => bind svc io host agent id
  | .forgetHost host => do
    forgetHost svc io host
    let s ← current
    pure (list s)
  | .delete id => delete svc io id

def step (svc : ProviderServices) (s : ProviderStore) (o : AppProviderOp × PersistIo) :
    ProviderStore :=
  ((perform svc o.2 o.1).run s).2

end AppProviders

end LatteWork
