import LatteWork.Lib.Runs
import LatteWork.Providers.App
import LatteWork.Providers.Host

/-!
# A configuration is what its file says, and its bindings lead somewhere

Every operation of the two stores ends in one `persist`, which validates the whole configuration,
replaces the file and only then the copy in memory. What was validated once holds of every
configuration a store reaches, and a request that fails has changed neither.
-/

namespace LatteWork

open Fallible Prog

namespace ProviderConfig

variable {svc : ProviderServices} {c : ProviderConfig}

theorem find_mem {id : String} {r : ProviderRecord} (h : c.find id = some r) :
    r ∈ c.providers ∧ r.metadata.id = id :=
  ⟨List.mem_of_find?_eq_some h, by simpa using List.find?_some h⟩

theorem validateRecords_ok : ∀ {ids : List String} {l : List ProviderRecord},
    validateRecords svc ids l = .ok () → (l.map (·.metadata.id)).Nodup ∧
      ∀ r ∈ l, r.metadata.id ∉ ids ∧ validateProvider svc.parseUrl r.metadata r.credential = .ok ()
  | _, [], _ => ⟨List.nodup_nil, by simp⟩
  | ids, r :: rest, h => by
    simp only [validateRecords, bind_eq_ok, bailIf_eq_ok] at h
    obtain ⟨⟨⟩, hvalid, ⟨⟩, hnew, hrest⟩ := h
    obtain ⟨hnodup, hall⟩ := validateRecords_ok hrest
    refine ⟨List.nodup_cons.2 ⟨fun hmem => ?_, hnodup⟩, fun q hq => ?_⟩
    · obtain ⟨q, hq, hid⟩ := List.mem_map.1 hmem
      exact (hall q hq).1 (hid ▸ List.mem_cons_self)
    · rcases List.mem_cons.1 hq with rfl | hq
      · exact ⟨hnew, hvalid⟩
      · exact ⟨fun hmem => (hall q hq).1 (List.mem_cons_of_mem _ hmem), (hall q hq).2⟩

/-- What a validated configuration is: few providers, told apart by their ids, and bindings that
refer to them. -/
structure Integral (accepts : String → ProviderRecord → Prop) (c : ProviderConfig) : Prop where
  few : c.providers.length ≤ 16
  distinct : (c.providers.map (·.metadata.id)).Nodup
  refers : ∀ p ∈ c.associations, ∃ r, c.find p.2 = some r ∧ accepts p.1 r

theorem validateWith_ok {host : String → Except String Unit}
    {binding : String → Option ProviderRecord → Except String Unit}
    (h : c.validateWith svc host binding = .ok ()) :
    c.providers.length ≤ 16 ∧ validateRecords svc [] c.providers = .ok () ∧
      (∀ p ∈ c.hostBindings.entries, host p.1 = .ok ()) ∧
      ∀ p ∈ c.associations, binding p.1 (c.find p.2) = .ok () := by
  simp only [validateWith, bind_eq_ok, bailIf_eq_ok, forM_eq_ok, not_or, not_lt] at h
  obtain ⟨_, ⟨_, hfew⟩, ⟨⟩, hrecords, _, _, _, hhosts, hbindings⟩ := h
  exact ⟨hfew, hrecords, fun p hp => hhosts p.1 (List.mem_map.2 ⟨p, hp, rfl⟩), hbindings⟩

theorem integral_of_validateWith {host : String → Except String Unit}
    {binding : String → Option ProviderRecord → Except String Unit}
    {accepts : String → ProviderRecord → Prop}
    (hbinding : ∀ agent record, binding agent record = .ok () → ∃ r, record = some r ∧ accepts agent r)
    (h : c.validateWith svc host binding = .ok ()) : c.Integral accepts := by
  obtain ⟨hfew, hrecords, -, hbindings⟩ := validateWith_ok h
  exact ⟨hfew, (validateRecords_ok hrecords).1, fun p hp => hbinding _ _ (hbindings p hp)⟩

/-- A listing of bindings of the configuration finds the record of each. -/
theorem Integral.catalog_isSome {accepts : String → ProviderRecord → Prop} (h : c.Integral accepts)
    {bindings : List (String × String)} (hsub : ∀ p ∈ bindings, p ∈ c.associations) :
    (c.catalog bindings).isSome := by
  have hlisted (f : String × String → Option AgentProviderBinding)
      (hf : ∀ p ∈ c.associations, (f p).isSome) : ∀ l : List (String × String),
      (∀ p ∈ l, p ∈ c.associations) → ∃ out, l.mapM f = some out := by
    intro l hl
    induction l with
    | nil => exact ⟨[], rfl⟩
    | cons p rest ih =>
      obtain ⟨b, hb⟩ := Option.isSome_iff_exists.1 (hf p (hl p List.mem_cons_self))
      obtain ⟨out, hout⟩ := ih fun q hq => hl q (List.mem_cons_of_mem _ hq)
      simp [hb, hout]
  unfold catalog
  refine Option.isSome_iff_exists.2 ⟨_, Option.bind_eq_some_iff.2
    ⟨_, (hlisted _ (fun p hp => ?_) bindings hsub).choose_spec, rfl⟩⟩
  obtain ⟨r, hr, -⟩ := h.refers p hp
  simp [hr]

theorem mem_associations {p : String × String} : p ∈ c.associations ↔
    p ∈ c.bindings.entries ∨ ∃ q ∈ c.hostBindings.entries, p ∈ q.2.entries := by
  simp [associations]

theorem local_associations : ∀ p ∈ c.bindings.entries, p ∈ c.associations :=
  fun _ hp => mem_associations.2 (.inl hp)

theorem host_associations (host : String) :
    ∀ p ∈ ((c.hostBindings.find? host).getD OrdMap.empty).entries, p ∈ c.associations := by
  intro p hp
  rcases h : c.hostBindings.find? host with - | bindings
  · rw [h] at hp
    cases hp
  · rw [h] at hp
    exact mem_associations.2 (.inr ⟨(host, bindings), OrdMap.find?_eq_some.1 h, hp⟩)

end ProviderConfig

namespace ProviderStore

variable {svc : ProviderServices} {validate : ProviderConfig → Except String Unit} {io : PersistIo}
  {α : Type}

/-- The store once a configuration was persisted. -/
def stored (c : ProviderConfig) : ProviderStore := { file := some c, config := c }

theorem wp_outcome {e : Option String} {Q : Unit → ProviderStore → Prop}
    {E : String → ProviderStore → Prop} {s : ProviderStore} (hQ : Q () s) (hE : ∀ e, E e s) :
    wp (outcome e) Q E s := by
  cases e with
  | none => exact hQ
  | some e => exact hE e

theorem persist_wp {next : ProviderConfig} {s : ProviderStore} :
    wp (persist svc validate io next)
      (fun _ t => validate next = .ok () ∧ t = stored next)
      (fun _ t => t = s) s := by
  refine wp_bind.2 (wp_lift.2 ⟨fun _ hvalid => ?_, fun _ _ => rfl⟩)
  refine wp_bind.2 (wp_bailIf.2 ⟨fun _ => rfl, fun _ => ?_⟩)
  refine wp_bind.2 (wp_outcome ?_ fun _ => rfl)
  exact wp_bind.2 (wp_outcome ⟨hvalid, rfl⟩ fun _ => rfl)

/-- A run that began with `s₀` has reached `s`: the configuration is a validated one, and it is the
one in the file unless nothing has happened yet. -/
structure Sound (validate : ProviderConfig → Except String Unit) (s₀ s : ProviderStore) : Prop where
  valid : validate s.config = .ok ()
  persisted : s.file = some s.config ∨ s = s₀

theorem Sound.next {m : ProviderOp α} {s₀ s : ProviderStore} (h : Sound validate s₀ s)
    (hm : wp m (fun _ t => ∃ next, validate next = .ok () ∧ t = stored next) (fun _ t => t = s) s) :
    Sound validate s₀ (m.run s).2 := by
  unfold wp at hm
  unfold Prog.run
  rcases hr : m s with ⟨e | a, t⟩ <;> rw [hr] at hm
  · rwa [show t = s from hm]
  · obtain ⟨next, hvalid, rfl⟩ := hm
    exact ⟨hvalid, .inl rfl⟩

/-- The part of a request before its `persist` reads the store and may fail. -/
theorem wp_existing {draft : ProviderDraft} {s : ProviderStore}
    {Q : Option ProviderRecord → ProviderStore → Prop}
    (hnone : draft.id = none → Q none s)
    (hsome : ∀ id r, draft.id = some id → s.config.find id = some r → Q (some r) s) :
    wp (existing draft) Q (fun _ t => t = s) s := by
  unfold existing
  refine wp_bind.2 (wp_current.2 ?_)
  rcases hid : draft.id with - | id
  · exact hnone hid
  · exact wp_bind.2 (wp_orError.2 ⟨fun r hr => hsome id r hid hr, fun _ => rfl⟩)

end ProviderStore

/-- The record that saving a draft stores, over the one it replaces. -/
structure SavedRecord (draft : ProviderDraft) (fresh revision : String)
    (old : Option ProviderRecord) (record : ProviderRecord) : Prop where
  unsynced : record.synced = false
  metadata : ∃ hasCredential, record.metadata =
    draft.normalize.metadata (draft.id.getD fresh) revision hasCredential

namespace HostProviders

open ProviderStore ProviderConfig

/-- What a request that ends well makes of the configuration. -/
inductive Move (c : ProviderConfig) : HostProviderOp → ProviderConfig → Prop where
  | save {draft : ProviderDraft} {fresh revision : String} {old : Option ProviderRecord}
      {record : ProviderRecord} : (∀ id, draft.id = some id → ∃ r, c.find id = some r ∧ old = some r) →
      (draft.id = none → old = none) → SavedRecord draft fresh revision old record →
      (∀ credential, draft.credential = some credential → record.credential = credential) →
      (draft.credential = none → ∃ r, old = some r ∧ record.credential = r.credential ∧
        r.metadata.baseUrl = draft.normalize.baseUrl ∧ r.metadata.auth = draft.auth) →
      Move c (.save draft fresh revision) (c.put record)
  | bind {agent id : String} : Move c (.bind agent (some id))
      ({ c with bindings := c.bindings.insert agent id } : ProviderConfig).prune
  | unbind {agent : String} : Move c (.bind agent none)
      ({ c with bindings := c.bindings.erase agent } : ProviderConfig).prune
  | bindHost {host agent id : String} : Move c (.bindHost host agent (some id))
      { c with
        hostBindings := c.hostBindings.insert host
          (((c.hostBindings.find? host).getD OrdMap.empty).insert agent id) }
  | unbindHost {host agent : String} : Move c (.bindHost host agent none)
      { c with
        hostBindings := c.hostBindings.insert host
          (((c.hostBindings.find? host).getD OrdMap.empty).erase agent) }
  | forgetHost {host : String} : Move c (.forgetHost host)
      { c with hostBindings := c.hostBindings.erase host }
  | sync {agent : String} {snapshot : ProviderSnapshot} : Move c (.sync agent (some snapshot))
      ({ c with
        providers := c.providers.filter (·.metadata.id ≠ snapshot.provider.id) ++
          [{ synced := true, metadata := snapshot.provider, credential := snapshot.credential }]
        bindings := c.bindings.insert agent snapshot.provider.id } : ProviderConfig).prune
  | unsync {agent : String} : Move c (.sync agent none)
      ({ c with bindings := c.bindings.erase agent } : ProviderConfig).prune
  | delete {id : String} : c.bound id = false →
      Move c (.delete id) { c with providers := c.providers.filter (·.metadata.id ≠ id) }

variable {svc : ProviderServices} {io : PersistIo} {s : ProviderStore}

theorem integral {c : ProviderConfig} (h : validateConfig svc c = .ok ()) :
    c.Integral fun agent r => compatible agent r.metadata = .ok () := by
  refine integral_of_validateWith (fun agent record hb => ?_) h
  simp only [bind_eq_ok, orError_eq_ok] at hb
  exact hb

theorem list_isSome (h : validateConfig svc s.config = .ok ()) : (list s).isSome :=
  (integral h).catalog_isSome local_associations

theorem persist_wp {next : ProviderConfig} :
    wp (persist svc io next)
      (fun a t => (validateConfig svc next = .ok () ∧ t = stored next) ∧ a.isSome)
      (fun _ t => t = s) s := by
  refine wp_bind.2 (wp_mono ProviderStore.persist_wp (fun _ t ht => ?_) fun _ _ ht => ht)
  obtain ⟨hvalid, rfl⟩ := ht
  exact ⟨⟨hvalid, rfl⟩, list_isSome hvalid⟩

/-- How a request ends: with the configuration moved and persisted, or with nothing done. -/
def Ends (svc : ProviderServices) (s : ProviderStore) (o : HostProviderOp)
    (m : ProviderOp (Option Catalog)) : Prop :=
  wp m (fun a t => ∃ next, Move s.config o next ∧ validateConfig svc next = .ok () ∧
    t = stored next ∧ a.isSome) (fun _ t => t = s) s

theorem ends_persist {o : HostProviderOp} {next : ProviderConfig} (h : Move s.config o next) :
    Ends svc s o (persist svc io next) :=
  wp_mono persist_wp (fun _ _ ht => ⟨next, h, ht.1.1, ht.1.2, ht.2⟩) fun _ _ ht => ht

theorem bind_ends (agent : String) (id : Option String) :
    Ends svc s (.bind agent id) (bind svc io agent id) := by
  refine wp_bind.2 (wp_bailIf.2 ⟨fun _ => rfl, fun _ => wp_bind.2 (wp_current.2 ?_)⟩)
  cases id with
  | none => exact ends_persist .unbind
  | some id => exact ends_persist .bind

theorem forgetHost_ends (host : String) :
    Ends svc s (.forgetHost host) (forgetHost svc io host) :=
  wp_bind.2 (wp_lift.2 ⟨fun _ _ => wp_bind.2 (wp_current.2 (ends_persist .forgetHost)),
    fun _ _ => rfl⟩)

theorem delete_ends (id : String) : Ends svc s (.delete id) (delete svc io id) := by
  refine wp_bind.2 (wp_current.2 (wp_bind.2 (wp_bailIf.2 ⟨fun _ => rfl, fun hbound => ?_⟩)))
  refine wp_bind.2 (wp_bailIf.2 ⟨fun _ => rfl, fun _ => ?_⟩)
  exact ends_persist (.delete (by simpa using hbound))

theorem sync_ends (agent : String) (snapshot : Option ProviderSnapshot) :
    Ends svc s (.sync agent snapshot) (sync svc io agent snapshot) := by
  cases snapshot with
  | none =>
    refine wp_bind.2 (wp_bailIf.2 ⟨fun _ => rfl, fun _ => wp_bind.2 (wp_current.2 ?_)⟩)
    exact ends_persist .unsync
  | some snapshot =>
    refine wp_bind.2 (wp_lift.2 ⟨fun _ _ => wp_bind.2 (wp_current.2 ?_), fun _ _ => rfl⟩)
    exact ends_persist .sync

/-- The last step of `bind_host` cannot fail any more: it checks the host a second time. -/
theorem bindHost_ends (host agent : String) (id : Option String) :
    Ends svc s (.bindHost host agent id) (bindHost svc io host agent id) := by
  refine wp_bind.2 (wp_lift.2 ⟨fun _ hhost => ?_, fun _ _ => rfl⟩)
  refine wp_bind.2 (wp_bailIf.2 ⟨fun _ => rfl, fun _ => wp_bind.2 (wp_current.2 ?_)⟩)
  have hlast : ∀ {next : ProviderConfig}, Move s.config (.bindHost host agent id) next →
      wp (persist svc io next >>= fun _ => current >>= fun s => lift (listForHost s host))
        (fun a t => ∃ next, Move s.config (.bindHost host agent id) next ∧
          validateConfig svc next = .ok () ∧ t = stored next ∧ a.isSome) (fun _ t => t = s) s := by
    intro next hmove
    refine wp_bind.2 (wp_mono persist_wp (fun _ t ht => ?_) fun _ _ ht => ht)
    obtain ⟨⟨hvalid, rfl⟩, -⟩ := ht
    refine wp_bind.2 (wp_current.2 (wp_lift.2 ⟨fun a ha => ?_, fun e he => ?_⟩)) <;>
      simp only [listForHost, hhost] at *
    · refine ⟨next, hmove, hvalid, rfl, ?_⟩
      rw [← Except.ok.inj ha]
      exact (integral hvalid).catalog_isSome (host_associations host)
    · cases he
  cases id with
  | none => exact hlast .unbindHost
  | some id => exact wp_bind.2 (wp_lift.2 ⟨fun _ _ => hlast .bindHost, fun _ _ => rfl⟩)

theorem save_ends (draft : ProviderDraft) (fresh revision : String) :
    Ends svc s (.save draft fresh revision) (save svc io draft fresh revision) := by
  have hrest : ∀ old : Option ProviderRecord,
      (∀ id, draft.id = some id → ∃ r, s.config.find id = some r ∧ old = some r) →
      (draft.id = none → old = none) →
      Ends svc s (.save draft fresh revision) (do
        bailIf (old.any fun old => draft.credential.isNone &&
          (old.metadata.baseUrl ≠ draft.normalize.baseUrl || old.metadata.auth ≠ draft.auth))
          "更改地址或认证方式时，请重新填写凭据"
        let credential ← Prog.orError "请填写 Provider 凭据"
          (draft.credential.or (old.map (·.credential)))
        let metadata := draft.normalize.metadata (draft.id.getD fresh) revision true
        lift (validateProvider svc.parseUrl metadata credential)
        persist svc io (s.config.put { metadata, credential })) := by
    intro old hold hnew
    refine wp_bind.2 (wp_bailIf.2 ⟨fun _ => rfl, fun hsame => ?_⟩)
    refine wp_bind.2 (wp_orError.2 ⟨fun credential hcred => ?_, fun _ => rfl⟩)
    refine wp_bind.2 (wp_lift.2 ⟨fun _ _ => ?_, fun _ _ => rfl⟩)
    refine ends_persist (.save hold hnew ⟨rfl, true, rfl⟩ (fun c hc => ?_) fun hc => ?_)
    · rw [hc] at hcred
      exact (Option.some.inj hcred).symm
    · rw [hc] at hcred hsame
      obtain ⟨r, rfl, hr⟩ := Option.map_eq_some_iff.1 hcred
      simp only [Option.any_some, Option.isNone_none, Bool.true_and, Bool.or_eq_true,
        decide_eq_true_eq, not_or, not_not] at hsame
      exact ⟨r, rfl, hr.symm, hsame.1, hsame.2⟩
  refine wp_bind.2 (wp_current.2 (wp_bind.2 (wp_existing (fun hid => ?_) fun id r hid hr => ?_)))
  · exact hrest none (fun id h => absurd (hid.symm.trans h) (by simp)) fun _ => rfl
  · refine hrest (some r) (fun id' h => ⟨r, ?_, rfl⟩) fun h => absurd (hid.symm.trans h) (by simp)
    rw [← hr, Option.some.inj (h.symm.trans hid)]

theorem perform_ends (o : HostProviderOp) : Ends svc s o (perform svc io o) := by
  cases o with
  | save draft fresh revision => exact save_ends draft fresh revision
  | bind agent id => exact bind_ends agent id
  | bindHost host agent id => exact bindHost_ends host agent id
  | forgetHost host => exact forgetHost_ends host
  | sync agent snapshot => exact sync_ends agent snapshot
  | delete id => exact delete_ends id

theorem step_sound {s₀ s : ProviderStore} (h : Sound (validateConfig svc) s₀ s)
    (o : HostProviderOp × PersistIo) : Sound (validateConfig svc) s₀ (step svc s o) :=
  h.next (wp_mono (perform_ends o.1) (fun _ _ ⟨next, _, hvalid, ht, _⟩ => ⟨next, hvalid, ht⟩)
    fun _ _ ht => ht)

theorem perform_outcome (o : HostProviderOp) :
    (∀ e, ((perform svc io o).run s).1 = .error e → ((perform svc io o).run s).2 = s) ∧
      ∀ a, ((perform svc io o).run s).1 = .ok a → a.isSome := by
  have h := wp_run (@perform_ends svc io s o) rfl
  exact ⟨fun e he => h.2 e he, fun a ha => by
    obtain ⟨_, _, _, _, hsome⟩ := h.1 a ha
    exact hsome⟩

theorem run_sound {s₀ : ProviderStore} (h : validateConfig svc s₀.config = .ok ())
    (ops : List (HostProviderOp × PersistIo)) :
    Sound (validateConfig svc) s₀ (Runs.run (step svc) s₀ ops) :=
  Runs.run_keeps (P := Sound (validateConfig svc) s₀) ⟨h, .inr rfl⟩ (fun _ o hs => step_sound hs o) ops

end HostProviders

namespace AppProviders

open ProviderStore ProviderConfig

/-- Bind an agent, or leave it to its own configuration. -/
def rebind (bindings : OrdMap String String) (agent : String) : Option String → OrdMap String String
  | some id => bindings.insert agent id
  | none => bindings.erase agent

/-- What a request that ends well makes of the configuration. -/
inductive Move (c : ProviderConfig) : AppProviderOp → ProviderConfig → Prop where
  | save {draft : ProviderDraft} {fresh revision : String} {old : Option ProviderRecord}
      {record : ProviderRecord} : (∀ id, draft.id = some id → ∃ r, c.find id = some r ∧ old = some r) →
      (draft.id = none → old = none) → SavedRecord draft fresh revision old record →
      (draft.auth = .none → record.credential = "") →
      (draft.auth ≠ .none → ∀ credential, draft.credential = some credential →
        record.credential = credential) →
      (draft.auth ≠ .none → draft.credential = none → ∃ r, old = some r ∧
        record.credential = r.credential ∧ r.metadata.baseUrl = draft.normalize.baseUrl ∧
        r.metadata.auth = draft.auth) →
      Move c (.save draft fresh revision) (c.put record)
  | bindLocal {agent : String} {id : Option String} : Move c (.bind "local" agent id)
      { c with bindings := rebind c.bindings agent id }
  | bindHost {host agent : String} {id : Option String} : host ≠ "local" →
      Move c (.bind host agent id)
        { c with
          hostBindings := c.hostBindings.insert host
            (rebind ((c.hostBindings.find? host).getD OrdMap.empty) agent id) }
  | forgetLocal : Move c (.forgetHost "local") { c with bindings := OrdMap.empty }
  | forgetHost {host : String} : host ≠ "local" →
      Move c (.forgetHost host) { c with hostBindings := c.hostBindings.erase host }
  | delete {id : String} : Move c (.delete id)
      { c with
        providers := c.providers.filter (·.metadata.id ≠ id)
        bindings := c.bindings.retain (·.2 ≠ id)
        hostBindings := (c.hostBindings.mapValues fun b => b.retain (·.2 ≠ id)).retain (·.2.entries ≠ [])
        activeId := if c.activeId = some id then none else c.activeId }

variable {svc : ProviderServices} {io : PersistIo} {s : ProviderStore}

theorem integral {c : ProviderConfig} (h : validateConfig svc c = .ok ()) :
    c.Integral fun _ _ => True := by
  refine integral_of_validateWith (fun agent record hb => ?_) h
  simp only [bind_eq_ok, bailIf_eq_ok] at hb
  obtain ⟨_, -, hsome⟩ := hb
  cases record with
  | none => simp at hsome
  | some r => exact ⟨r, rfl, trivial⟩

theorem list_isSome (h : validateConfig svc s.config = .ok ()) : (list s).isSome :=
  (integral h).catalog_isSome fun _ hp => hp

theorem listed_isSome (h : validateConfig svc s.config = .ok ()) (host : String) :
    (s.config.catalog ((bindings s host).getD OrdMap.empty).entries).isSome := by
  unfold bindings
  split_ifs
  · exact (integral h).catalog_isSome local_associations
  · exact (integral h).catalog_isSome (host_associations host)

theorem persist_wp {next : ProviderConfig} :
    wp (persist svc io next)
      (fun a t => (validateConfig svc next = .ok () ∧ t = stored next) ∧ a.isSome)
      (fun _ t => t = s) s := by
  refine wp_bind.2 (wp_mono ProviderStore.persist_wp (fun _ t ht => ?_) fun _ _ ht => ht)
  obtain ⟨hvalid, rfl⟩ := ht
  exact ⟨⟨hvalid, rfl⟩, list_isSome hvalid⟩

/-- How a request ends: with the configuration moved and persisted, or with nothing done. -/
def Ends (svc : ProviderServices) (s : ProviderStore) (o : AppProviderOp)
    (m : ProviderOp (Option Catalog)) : Prop :=
  wp m (fun a t => ∃ next, Move s.config o next ∧ validateConfig svc next = .ok () ∧
    t = stored next ∧ a.isSome) (fun _ t => t = s) s

theorem ends_persist {o : AppProviderOp} {next : ProviderConfig} (h : Move s.config o next) :
    Ends svc s o (persist svc io next) :=
  wp_mono persist_wp (fun _ _ ht => ⟨next, h, ht.1.1, ht.1.2, ht.2⟩) fun _ _ ht => ht

/-- The last step of `bind` cannot fail any more: it checks the host a second time. -/
theorem bind_ends (host agent : String) (id : Option String) :
    Ends svc s (.bind host agent id) (bind svc io host agent id) := by
  refine wp_bind.2 (wp_lift.2 ⟨fun _ hhost => ?_, fun _ _ => rfl⟩)
  refine wp_bind.2 (wp_lift.2 ⟨fun _ _ => wp_bind.2 (wp_current.2 ?_), fun _ _ => rfl⟩)
  have hlast : ∀ {next : ProviderConfig}, Move s.config (.bind host agent id) next →
      wp (persist svc io next >>= fun _ => current >>= fun s => lift (listForHost s host))
        (fun a t => ∃ next, Move s.config (.bind host agent id) next ∧
          validateConfig svc next = .ok () ∧ t = stored next ∧ a.isSome) (fun _ t => t = s) s := by
    intro next hmove
    refine wp_bind.2 (wp_mono persist_wp (fun _ t ht => ?_) fun _ _ ht => ht)
    obtain ⟨⟨hvalid, rfl⟩, -⟩ := ht
    refine wp_bind.2 (wp_current.2 (wp_lift.2 ⟨fun a ha => ?_, fun e he => ?_⟩)) <;>
      simp only [listForHost, hhost] at *
    · refine ⟨next, hmove, hvalid, rfl, ?_⟩
      rw [← Except.ok.inj ha]
      exact listed_isSome hvalid host
    · cases he
  by_cases hlocal : host = "local"
  · subst hlocal
    cases id <;> exact hlast .bindLocal
  · cases id <;> simp only [if_neg hlocal] <;> exact hlast (.bindHost hlocal)

theorem forgetHost_ends (host : String) : Ends svc s (.forgetHost host)
    (forgetHost svc io host >>= fun _ => current >>= fun s => pure (list s)) := by
  refine wp_bind.2 (wp_bind.2 (wp_lift.2 ⟨fun _ _ => wp_bind.2 (wp_current.2 ?_), fun _ _ => rfl⟩))
  have hlast : ∀ {next : ProviderConfig}, Move s.config (.forgetHost host) next →
      wp (persist svc io next >>= fun _ => pure ())
        (fun _ t => ∃ next, Move s.config (.forgetHost host) next ∧
          validateConfig svc next = .ok () ∧ t = stored next ∧ (list t).isSome)
        (fun _ t => t = s) s := by
    intro next hmove
    refine wp_bind.2 (wp_mono persist_wp (fun _ t ht => ?_) fun _ _ ht => ht)
    obtain ⟨⟨hvalid, rfl⟩, -⟩ := ht
    exact ⟨next, hmove, hvalid, rfl, list_isSome hvalid⟩
  by_cases hlocal : host = "local"
  · subst hlocal
    exact hlast .forgetLocal
  · simp only [if_neg hlocal]
    exact hlast (.forgetHost hlocal)

theorem delete_ends (id : String) : Ends svc s (.delete id) (delete svc io id) :=
  wp_bind.2 (wp_current.2 (ends_persist .delete))

theorem save_ends (draft : ProviderDraft) (fresh revision : String) :
    Ends svc s (.save draft fresh revision) (save svc io draft fresh revision) := by
  have hrest : ∀ old : Option ProviderRecord,
      (∀ id, draft.id = some id → ∃ r, s.config.find id = some r ∧ old = some r) →
      (draft.id = none → old = none) →
      Ends svc s (.save draft fresh revision) (do
        bailIf (old.any fun old => draft.auth ≠ .none && draft.credential.isNone &&
          (old.metadata.baseUrl ≠ draft.normalize.baseUrl || old.metadata.auth ≠ draft.auth))
          "更改地址或认证方式时，请重新填写凭据"
        bailIf (old.any fun old => old.metadata.protocol ≠ draft.protocol &&
          s.config.bound old.metadata.id) "请先解除 Provider 关联，再更改接口协议"
        let credential ← if draft.auth = .none then pure ""
          else Prog.orError "请填写 Provider 凭据" (draft.credential.or (old.map (·.credential)))
        let metadata := draft.normalize.metadata (draft.id.getD fresh) revision (credential ≠ "")
        lift (validateProvider svc.parseUrl metadata credential)
        persist svc io (s.config.put { metadata, credential })) := by
    intro old hold hnew
    refine wp_bind.2 (wp_bailIf.2 ⟨fun _ => rfl, fun hsame => ?_⟩)
    refine wp_bind.2 (wp_bailIf.2 ⟨fun _ => rfl, fun _ => ?_⟩)
    refine wp_ite.2 ⟨fun hauth => wp_bind.2 ?_, fun hauth => wp_bind.2 (wp_orError.2
      ⟨fun credential hcred => ?_, fun _ => rfl⟩)⟩
    · refine wp_bind.2 (wp_lift.2 ⟨fun _ _ => ?_, fun _ _ => rfl⟩)
      exact ends_persist (.save hold hnew ⟨rfl, _, rfl⟩ (fun _ => rfl) (fun h => absurd hauth h)
        fun h => absurd hauth h)
    · refine wp_bind.2 (wp_lift.2 ⟨fun _ _ => ?_, fun _ _ => rfl⟩)
      refine ends_persist (.save hold hnew ⟨rfl, _, rfl⟩ (fun h => absurd h hauth)
        (fun _ c hc => ?_) fun _ hc => ?_)
      · rw [hc] at hcred
        exact (Option.some.inj hcred).symm
      · rw [hc] at hcred hsame
        obtain ⟨r, rfl, hr⟩ := Option.map_eq_some_iff.1 hcred
        simp only [Option.any_some, Option.isNone_none, Bool.and_true, Bool.and_eq_true,
          Bool.or_eq_true, decide_eq_true_eq, not_and, not_or, not_not] at hsame
        exact ⟨r, rfl, hr.symm, hsame hauth⟩
  refine wp_bind.2 (wp_current.2 (wp_bind.2 (wp_existing (fun hid => ?_) fun id r hid hr => ?_)))
  · exact hrest none (fun id h => absurd (hid.symm.trans h) (by simp)) fun _ => rfl
  · refine hrest (some r) (fun id' h => ⟨r, ?_, rfl⟩) fun h => absurd (hid.symm.trans h) (by simp)
    rw [← hr, Option.some.inj (h.symm.trans hid)]

theorem perform_ends (o : AppProviderOp) : Ends svc s o (perform svc io o) := by
  cases o with
  | save draft fresh revision => exact save_ends draft fresh revision
  | bind host agent id => exact bind_ends host agent id
  | forgetHost host => exact forgetHost_ends host
  | delete id => exact delete_ends id

theorem step_sound {s₀ s : ProviderStore} (h : Sound (validateConfig svc) s₀ s)
    (o : AppProviderOp × PersistIo) : Sound (validateConfig svc) s₀ (step svc s o) :=
  h.next (wp_mono (perform_ends o.1) (fun _ _ ⟨next, _, hvalid, ht, _⟩ => ⟨next, hvalid, ht⟩)
    fun _ _ ht => ht)

theorem perform_outcome (o : AppProviderOp) :
    (∀ e, ((perform svc io o).run s).1 = .error e → ((perform svc io o).run s).2 = s) ∧
      ∀ a, ((perform svc io o).run s).1 = .ok a → a.isSome := by
  have h := wp_run (@perform_ends svc io s o) rfl
  exact ⟨fun e he => h.2 e he, fun a ha => by
    obtain ⟨_, _, _, _, hsome⟩ := h.1 a ha
    exact hsome⟩

theorem run_sound {s₀ : ProviderStore} (h : validateConfig svc s₀.config = .ok ())
    (ops : List (AppProviderOp × PersistIo)) :
    Sound (validateConfig svc) s₀ (Runs.run (step svc) s₀ ops) :=
  Runs.run_keeps (P := Sound (validateConfig svc) s₀) ⟨h, .inr rfl⟩ (fun _ o hs => step_sound hs o) ops

end AppProviders

section Integrity

variable {svc : ProviderServices} {fresh : List String}

theorem migrate_schema {c : ProviderConfig} (h : (c.migrate fresh).schema = 2) :
    c.schema = 1 ∨ (c.schema = 2 ∧ c.migrate fresh = c) := by
  unfold ProviderConfig.migrate at h ⊢
  split_ifs at h ⊢ with h₁
  · exact .inl h₁
  · exact .inr ⟨h, rfl⟩

/-- A store that was just opened, with the file it was opened from: it reads what the file says, or
what has become of an older file. -/
def Migrated (fresh : List String) (file : Option ProviderConfig) (s : ProviderStore) : Prop :=
  s.file = file ∧ ∃ c, file = some c ∧ c.schema = 1 ∧ s.config = c.migrate fresh

theorem validateWith_schema {c : ProviderConfig} {host : String → Except String Unit}
    {binding : String → Option ProviderRecord → Except String Unit}
    (h : c.validateWith svc host binding = .ok ()) : c.schema = 2 := by
  simp only [ProviderConfig.validateWith, bind_eq_ok, bailIf_eq_ok, not_or, not_not] at h
  obtain ⟨_, ⟨hschema, _⟩, _⟩ := h
  exact hschema

theorem host_open {file : Option ProviderConfig} {s₀ : ProviderStore}
    (h : HostProviders.open svc fresh file = .ok s₀) :
    HostProviders.validateConfig svc s₀.config = .ok () ∧
      (s₀.file = some s₀.config ∨ (file = none ∧ s₀ = { file := none, config := {} }) ∨
        Migrated fresh file s₀) := by
  simp only [HostProviders.open, bind_eq_ok, Except.ok.injEq] at h
  obtain ⟨⟨⟩, hvalid, rfl⟩ := h
  refine ⟨hvalid, ?_⟩
  cases file with
  | none => exact .inr (.inl ⟨rfl, rfl⟩)
  | some c =>
    rcases migrate_schema (validateWith_schema hvalid) with hold | ⟨-, hsame⟩
    · exact .inr (.inr ⟨rfl, c, rfl, hold, rfl⟩)
    · exact .inl (congrArg some hsame.symm)

theorem app_open {io : PersistIo} {file legacy : Option ProviderConfig} {s₀ : ProviderStore}
    (h : AppProviders.open svc io fresh file legacy = .ok s₀) :
    AppProviders.validateConfig svc s₀.config = .ok () ∧
      (s₀.file = some s₀.config ∨ Migrated fresh file s₀) := by
  cases file with
  | some c =>
    simp only [AppProviders.open, AppProviders.readConfig, bind_eq_ok, Except.ok.injEq] at h
    obtain ⟨_, ⟨⟨⟩, hvalid, rfl⟩, rfl⟩ := h
    refine ⟨hvalid, ?_⟩
    rcases migrate_schema (validateWith_schema hvalid) with hold | ⟨-, hsame⟩
    · exact .inr ⟨rfl, c, rfl, hold, rfl⟩
    · exact .inl (congrArg some hsame.symm)
  | none =>
    have hcopied : ∀ config : ProviderConfig, (do
        let _ ← ((AppProviders.persist svc io config).run { file := none, config }).1
        .ok ((AppProviders.persist svc io config).run { file := none, config }).2) = .ok s₀ →
        AppProviders.validateConfig svc s₀.config = .ok () ∧ s₀.file = some s₀.config := by
      intro config hok
      simp only [bind_eq_ok, Except.ok.injEq] at hok
      obtain ⟨a, hok, rfl⟩ := hok
      have ht : ((AppProviders.persist svc io config).run { file := none, config }).2 =
          ProviderStore.stored config :=
        ((wp_run AppProviders.persist_wp rfl).1 a hok).1.2
      have hvalid := ((wp_run (@AppProviders.persist_wp svc io _ config) rfl).1 a hok).1.1
      rw [ht]
      exact ⟨hvalid, rfl⟩
    cases legacy with
    | none => exact (hcopied {} h).imp_right .inl
    | some c =>
      simp only [AppProviders.open] at h
      obtain ⟨config, -, h⟩ := bind_eq_ok.1 h
      exact (hcopied config h).imp_right .inl

/-- In every run of either store from any file it accepts: at most 16 providers with distinct ids,
every binding refers to one of them (on a host to one whose protocol the agent supports), no
listing runs into `expect`, a request that fails changes neither file nor memory, and the
configuration is the one in the file. The exception is a store in which no request has ended well:
on a host without a file, and over a file of schema 1, which opening migrates in memory only. -/
theorem provider_integrity (svc : ProviderServices) (fresh : List String)
    (file : Option ProviderConfig) :
    (∀ s₀ ops, HostProviders.open svc fresh file = .ok s₀ →
      let s := Runs.run (HostProviders.step svc) s₀ ops
      s.config.Integral (fun agent r => compatible agent r.metadata = .ok ()) ∧
      (HostProviders.list s).isSome ∧
      (∀ host c, HostProviders.listForHost s host = .ok c → c.isSome) ∧
      (s.file = some s.config ∨ s = s₀ ∧ (file = none ∧ s = { file := none, config := {} } ∨
        Migrated fresh file s)) ∧
      ∀ io o, (∀ e, ((HostProviders.perform svc io o).run s).1 = .error e →
          ((HostProviders.perform svc io o).run s).2 = s) ∧
        ∀ a, ((HostProviders.perform svc io o).run s).1 = .ok a → a.isSome) ∧
    (∀ io legacy s₀ ops, AppProviders.open svc io fresh file legacy = .ok s₀ →
      let s := Runs.run (AppProviders.step svc) s₀ ops
      s.config.Integral (fun _ _ => True) ∧
      (AppProviders.list s).isSome ∧
      (∀ host c, AppProviders.listForHost s host = .ok c → c.isSome) ∧
      (s.file = some s.config ∨ s = s₀ ∧ Migrated fresh file s) ∧
      ∀ io o, (∀ e, ((AppProviders.perform svc io o).run s).1 = .error e →
          ((AppProviders.perform svc io o).run s).2 = s) ∧
        ∀ a, ((AppProviders.perform svc io o).run s).1 = .ok a → a.isSome) := by
  refine ⟨fun s₀ ops h => ?_, fun io legacy s₀ ops h => ?_⟩
  · obtain ⟨hvalid₀, hfile₀⟩ := host_open h
    obtain ⟨hvalid, hfile⟩ := HostProviders.run_sound hvalid₀ ops
    refine ⟨HostProviders.integral hvalid, HostProviders.list_isSome hvalid, ?_, ?_,
      fun io o => HostProviders.perform_outcome o⟩
    · intro host c hc
      simp only [HostProviders.listForHost, bind_eq_ok, Except.ok.injEq] at hc
      obtain ⟨_, -, rfl⟩ := hc
      exact (HostProviders.integral hvalid).catalog_isSome (ProviderConfig.host_associations host)
    · rcases hfile with hfile | hsame
      · exact .inl hfile
      · rw [hsame]
        exact hfile₀.imp_right fun h => ⟨rfl, h⟩
  · obtain ⟨hvalid₀, hfile₀⟩ := app_open h
    obtain ⟨hvalid, hfile⟩ := AppProviders.run_sound hvalid₀ ops
    refine ⟨AppProviders.integral hvalid, AppProviders.list_isSome hvalid, ?_, ?_,
      fun io o => AppProviders.perform_outcome o⟩
    · intro host c hc
      simp only [AppProviders.listForHost, bind_eq_ok, Except.ok.injEq] at hc
      obtain ⟨_, -, rfl⟩ := hc
      exact AppProviders.listed_isSome hvalid host
    · rcases hfile with hfile | hsame
      · exact .inl hfile
      · rw [hsame]
        exact hfile₀.imp_right fun h => ⟨rfl, h⟩

/-- No address parses here, and nothing is too large. -/
def noServices : ProviderServices where
  parseUrl _ := none
  prettySize _ := 0

/-- A file of schema 1 stays one until the first request that ends well. -/
theorem oldFile_differs :
    HostProviders.open noServices [] (some { schema := 1 }) =
      .ok { file := some { schema := 1 }, config := {} } ∧
    let s := Runs.run (HostProviders.step noServices)
      { file := some { schema := 1 }, config := {} } [(.delete "p", {})]
    s.file ≠ some s.config :=
  ⟨rfl, by decide⟩

end Integrity

end LatteWork
