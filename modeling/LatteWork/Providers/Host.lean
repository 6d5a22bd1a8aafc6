import LatteWork.Providers.Config

/-!
# The providers of a host

The configuration of a server: its own bindings, those that an App keeps for its remote hosts, and
the records that an App installed here with a binding.
-/

namespace LatteWork

open Fallible Prog

/-- `agents::provider_protocols`. -/
def providerProtocols (agent : String) : Option (List ProviderProtocol) :=
  if agent = "claude" then some [.anthropicMessages]
  else if agent = "traex" then some [.anthropicMessages, .openaiChat, .openaiResponses]
  else none

/-- `compatible`. -/
def compatible (agent : String) (provider : Provider) : Except String Unit := do
  let protocols ← orError "Agent 尚未实现" (providerProtocols agent)
  bailIf (provider.protocol ∉ protocols) "此 Code Agent 不支持所选 Provider 的协议"

/-- `validate_host_id`. -/
def validateHostId (hostId : String) : Except String Unit :=
  bailIf (hostId = "" ∨ hostId = "local" ∨ 255 < hostId.utf8ByteSize ∨
    hostId.toList.any Store.isControl) "远程主机 ID 无效"

namespace HostProviders

/-- `validate_config`. -/
def validateConfig (svc : ProviderServices) (c : ProviderConfig) : Except String Unit :=
  c.validateWith svc validateHostId fun agent record => do
    let record ← orError "关联的 Provider 不存在" record
    compatible agent record.metadata

/-- `open`, on what the file decodes to. -/
def «open» (svc : ProviderServices) (fresh : List String) (file : Option ProviderConfig) :
    Except String ProviderStore := do
  let config := (file.getD {}).migrate fresh
  validateConfig svc config
  .ok { file, config }

/-- `list`. -/
def list (s : ProviderStore) : Option Catalog := s.config.catalog s.config.bindings.entries

/-- `list_for_host`. -/
def listForHost (s : ProviderStore) (hostId : String) : Except String (Option Catalog) := do
  validateHostId hostId
  .ok (s.config.catalog ((s.config.hostBindings.find? hostId).getD OrdMap.empty).entries)

/-- `snapshot`. -/
def snapshot (s : ProviderStore) (agent id : String) : Except String ProviderSnapshot := do
  let record ← orError "Provider 不存在" (s.config.find id)
  compatible agent record.metadata
  .ok { provider := record.metadata, credential := record.credential }

section

variable (svc : ProviderServices) (io : PersistIo)

/-- `persist`. -/
def persist (next : ProviderConfig) : ProviderOp (Option Catalog) := do
  ProviderStore.persist svc (validateConfig svc) io next
  let s ← current
  pure (list s)

/-- `bind_host`. -/
def bindHost (hostId agent : String) (id : Option String) : ProviderOp (Option Catalog) := do
  lift (validateHostId hostId)
  bailIf (providerProtocols agent).isNone "Agent 尚未实现"
  let s ← current
  match id with
  | none => pure ()
  | some id => do
    let _ ← lift (snapshot s agent id)
    pure ()
  let bindings := (s.config.hostBindings.find? hostId).getD OrdMap.empty
  let bindings := match id with
    | some id => bindings.insert agent id
    | none => bindings.erase agent
  let _ ← persist svc io
    { s.config with hostBindings := s.config.hostBindings.insert hostId bindings }
  let s ← current
  lift (listForHost s hostId)

/-- `forget_host`. -/
def forgetHost (hostId : String) : ProviderOp (Option Catalog) := do
  lift (validateHostId hostId)
  let s ← current
  persist svc io { s.config with hostBindings := s.config.hostBindings.erase hostId }

/-- `save`. The new id and the revision are the fresh uuids. -/
def save (draft : ProviderDraft) (fresh revision : String) : ProviderOp (Option Catalog) := do
  let draft := draft.normalize
  let s ← current
  let existing ← ProviderStore.existing draft
  bailIf (existing.any fun old => draft.credential.isNone &&
    (old.metadata.baseUrl ≠ draft.baseUrl || old.metadata.auth ≠ draft.auth))
    "更改地址或认证方式时，请重新填写凭据"
  let credential ← orError "请填写 Provider 凭据"
    (draft.credential.or (existing.map (·.credential)))
  let metadata := draft.metadata (draft.id.getD fresh) revision true
  lift (validateProvider svc.parseUrl metadata credential)
  persist svc io (s.config.put { metadata, credential })

/-- `bind`. -/
def bind (agent : String) (id : Option String) : ProviderOp (Option Catalog) := do
  bailIf (providerProtocols agent).isNone "Agent 尚未实现"
  let s ← current
  let bindings := match id with
    | some id => s.config.bindings.insert agent id
    | none => s.config.bindings.erase agent
  let next : ProviderConfig := { s.config with bindings }
  persist svc io next.prune

/-- `sync`. -/
def sync (agent : String) (snapshot : Option ProviderSnapshot) : ProviderOp (Option Catalog) :=
  match snapshot with
  | none => bind svc io agent none
  | some snapshot => do
    lift (compatible agent snapshot.provider)
    let s ← current
    let id := snapshot.provider.id
    let record : ProviderRecord :=
      { synced := true, metadata := snapshot.provider, credential := snapshot.credential }
    let next : ProviderConfig := { s.config with
      providers := s.config.providers.filter (·.metadata.id ≠ id) ++ [record]
      bindings := s.config.bindings.insert agent id }
    persist svc io next.prune

/-- `delete`. -/
def delete (id : String) : ProviderOp (Option Catalog) := do
  let s ← current
  bailIf (s.config.bound id)
    "请先在 Code Agent 设置中解除所有主机的关联，再删除此 Provider"
  let providers := s.config.providers.filter (·.metadata.id ≠ id)
  bailIf (providers.length = s.config.providers.length) "Provider 不存在"
  persist svc io { s.config with providers }

end

end HostProviders

/-- A request to the store of a host, with how the file system answers it. -/
inductive HostProviderOp where
  | save (draft : ProviderDraft) (fresh revision : String)
  | bind (agent : String) (id : Option String)
  | bindHost (hostId agent : String) (id : Option String)
  | forgetHost (hostId : String)
  | sync (agent : String) (snapshot : Option ProviderSnapshot)
  | delete (id : String)
  deriving DecidableEq, Repr, Inhabited

namespace HostProviders

/-- One request. -/
def perform (svc : ProviderServices) (io : PersistIo) :
    HostProviderOp → ProviderOp (Option Catalog)
  | .save draft fresh revision => save svc io draft fresh revision
  | .bind agent id => bind svc io agent id
  | .bindHost hostId agent id => bindHost svc io hostId agent id
  | .forgetHost hostId => forgetHost svc io hostId
  | .sync agent snapshot => sync svc io agent snapshot
  | .delete id => delete svc io id

def step (svc : ProviderServices) (s : ProviderStore) (o : HostProviderOp × PersistIo) :
    ProviderStore :=
  ((perform svc o.2 o.1).run s).2

end HostProviders

end LatteWork
