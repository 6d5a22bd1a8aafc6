import LatteWork.Proofs.ProviderIntegrity
import Mathlib.Data.List.DropRight

/-!
# A stored credential stays with its address

A credential is entered with an address and a way to authenticate. The ledger of what was entered
last for each provider is kept beside the run, and every stored credential is paired with the
address and the authentication of its entry, through drafts that leave it out.
-/

namespace LatteWork

open Fallible Prog ProviderConfig

/-- A credential as it was entered, with its address as the store reads it. -/
structure Entered where
  credential : String
  baseUrl : String
  auth : ProviderAuth
  deriving DecidableEq, Repr, Inhabited

/-- The last entry of each provider. -/
abbrev EntryLedger := List (String × Entered)

namespace EntryLedger

/-- The records of a configuration, as entries. -/
def ofConfig (c : ProviderConfig) : EntryLedger :=
  c.providers.map fun r =>
    (r.metadata.id, { credential := r.credential, baseUrl := r.metadata.baseUrl, auth := r.metadata.auth })

/-- What an accepted draft enters. -/
def enter (l : EntryLedger) (draft : ProviderDraft) (fresh : String) : EntryLedger :=
  match draft.credential with
  | none => l
  | some credential => Assoc.put (draft.id.getD fresh)
      { credential, baseUrl := trim draft.baseUrl, auth := draft.auth } l

/-- Under an id, a credential was last entered with this address, up to slashes at its end, and
this authentication. -/
def Pairs (l : EntryLedger) (id credential baseUrl : String) (auth : ProviderAuth) : Prop :=
  ∃ e, l.lookup id = some e ∧ e.credential = credential ∧
    trimEndSlashes e.baseUrl = trimEndSlashes baseUrl ∧ e.auth = auth

end EntryLedger

/-- Every stored credential is paired as it was entered. -/
def ProviderConfig.Paired (c : ProviderConfig) (l : EntryLedger) : Prop :=
  ∀ r ∈ c.providers, r.credential ≠ "" →
    l.Pairs r.metadata.id r.credential r.metadata.baseUrl r.metadata.auth

/-- A request to save, with how the file system answers it. -/
structure SaveRequest where
  draft : ProviderDraft
  fresh : String
  revision : String
  io : PersistIo := {}
  deriving DecidableEq, Repr, Inhabited

/-- The store and the ledger after a request. -/
def afterSave (save : SaveRequest → ProviderOp (Option Catalog)) (x : ProviderStore × EntryLedger)
    (q : SaveRequest) : ProviderStore × EntryLedger :=
  let (result, s) := (save q).run x.1
  (s, match result with
    | .ok _ => x.2.enter q.draft q.fresh
    | .error _ => x.2)

def HostProviders.saveRequest (svc : ProviderServices) (q : SaveRequest) :
    ProviderOp (Option Catalog) :=
  save svc q.io q.draft q.fresh q.revision

def AppProviders.saveRequest (svc : ProviderServices) (q : SaveRequest) :
    ProviderOp (Option Catalog) :=
  save svc q.io q.draft q.fresh q.revision

/-- A draft gives a provider another address or another way to authenticate. -/
def ProviderDraft.Redirects (draft : ProviderDraft) (r : ProviderRecord) : Prop :=
  trimEndSlashes r.metadata.baseUrl ≠ trimEndSlashes (trim draft.baseUrl) ∨
    r.metadata.auth ≠ draft.auth

section

variable {c : ProviderConfig} {l : EntryLedger} {draft : ProviderDraft} {fresh revision : String}
  {old : Option ProviderRecord} {record : ProviderRecord}

theorem trimEndSlashes_idem (s : String) :
    trimEndSlashes (trimEndSlashes s) = trimEndSlashes s := by
  unfold trimEndSlashes
  simp only [String.toList_ofList, List.reverse_reverse]
  rw [List.dropWhile_idempotent]

theorem mem_putRecord_of_nodup {r : ProviderRecord} : ∀ {records : List ProviderRecord},
    (records.map (·.metadata.id)).Nodup → r ∈ putRecord record records →
      r = record ∨ (r ∈ records ∧ r.metadata.id ≠ record.metadata.id)
  | [], _, h => .inl (List.mem_singleton.1 h)
  | q :: rest, hnodup, h => by
    obtain ⟨hq, hrest⟩ := List.nodup_cons.1 hnodup
    unfold putRecord at h
    split_ifs at h with hid
    · refine (List.mem_cons.1 h).imp_right fun h => ⟨List.mem_cons_of_mem _ h, fun hr => ?_⟩
      exact hq (List.mem_map.2 ⟨r, h, hr.trans hid.symm⟩)
    · rcases List.mem_cons.1 h with rfl | h
      · exact .inr ⟨List.mem_cons_self, hid⟩
      · exact (mem_putRecord_of_nodup hrest h).imp_right fun h => ⟨List.mem_cons_of_mem _ h.1, h.2⟩

theorem ofConfig_paired (h : (c.providers.map (·.metadata.id)).Nodup) :
    c.Paired (EntryLedger.ofConfig c) := by
  intro r hr _
  refine ⟨⟨r.credential, r.metadata.baseUrl, r.metadata.auth⟩, ?_, rfl, rfl, rfl⟩
  have hkeys : ((EntryLedger.ofConfig c).map (·.1)).Nodup := by
    rw [EntryLedger.ofConfig, List.map_map]
    exact h
  exact (Assoc.lookup_eq_some hkeys).2 (List.mem_map.2 ⟨r, hr, rfl⟩)

/-- A record that was saved has the address and the authentication of its draft. -/
theorem SavedRecord.fields (h : SavedRecord draft fresh revision old record) :
    record.metadata.id = draft.id.getD fresh ∧
      record.metadata.baseUrl = trimEndSlashes (trim draft.baseUrl) ∧
      record.metadata.auth = draft.auth := by
  obtain ⟨-, _, hmeta⟩ := h
  rw [hmeta]
  exact ⟨rfl, rfl, rfl⟩

/-- Saving keeps every credential with its entry: the draft's own is entered by it, and one that
was left out is that of the record with the same address and authentication. -/
theorem put_paired (hc : c.Paired l) (hdistinct : (c.providers.map (·.metadata.id)).Nodup)
    (hrecord : SavedRecord draft fresh revision old record)
    (hold : ∀ id, draft.id = some id → ∃ r, c.find id = some r ∧ old = some r)
    (hnew : draft.id = none → old = none)
    (hgiven : record.credential ≠ "" → ∀ credential, draft.credential = some credential →
      record.credential = credential)
    (homitted : record.credential ≠ "" → draft.credential = none → ∃ r, old = some r ∧
      record.credential = r.credential ∧ r.metadata.baseUrl = draft.normalize.baseUrl ∧
      r.metadata.auth = draft.auth) :
    (c.put record).Paired (l.enter draft fresh) := by
  obtain ⟨hid, hurl, hauth⟩ := hrecord.fields
  intro r hr hne
  rcases mem_putRecord_of_nodup hdistinct hr with rfl | ⟨hr, hother⟩
  · rcases hcred : draft.credential with - | credential
    · obtain ⟨q, hq, hsame, hqurl, hqauth⟩ := homitted hne hcred
      rcases hdraft : draft.id with - | id
      · rw [hnew hdraft] at hq
        cases hq
      · obtain ⟨_, hfind, hq'⟩ := hold id hdraft
        obtain rfl := Option.some.inj (hq'.symm.trans hq)
        obtain ⟨hmem, hqid⟩ := find_mem hfind
        have hpair := hc _ hmem (hsame ▸ hne)
        rw [hqid, ← hsame, hqurl, hqauth] at hpair
        unfold EntryLedger.enter
        simp only [hcred]
        rw [hid, hdraft, hurl, hauth]
        exact hpair
    · refine ⟨⟨credential, trim draft.baseUrl, draft.auth⟩, ?_, (hgiven hne _ hcred).symm, ?_, hauth.symm⟩
      · unfold EntryLedger.enter
        simp only [hcred]
        rw [Assoc.lookup_put, hid, if_pos rfl]
      · rw [hurl, trimEndSlashes_idem]
  · obtain ⟨e, he, hrest⟩ := hc r hr hne
    refine ⟨e, ?_, hrest⟩
    unfold EntryLedger.enter
    cases draft.credential with
    | none => exact he
    | some credential =>
      simp only
      rw [Assoc.lookup_put, if_neg (hid ▸ hother)]
      exact he

end

section

variable {svc : ProviderServices} {s : ProviderStore} {l : EntryLedger} {q : SaveRequest}

/-- A saving step keeps what is true of the store and the ledger, if an accepted save does. -/
theorem afterSave_keeps {save : SaveRequest → ProviderOp (Option Catalog)}
    {P : ProviderStore → EntryLedger → Prop} {R : Option Catalog → ProviderStore → Prop}
    (h : wp (save q) R (fun _ t => t = s) s) (hs : P s l)
    (hok : ∀ a t, R a t → P t (l.enter q.draft q.fresh)) :
    P (afterSave save (s, l) q).1 (afterSave save (s, l) q).2 := by
  unfold wp at h
  unfold afterSave Prog.run
  rcases hr : save q s with ⟨e | a, t⟩ <;> rw [hr] at h
  · rwa [show t = s from h]
  · exact hok a t h

theorem HostProviders.saves_paired (hvalid : validateConfig svc s.config = .ok ())
    (hs : s.config.Paired l) (qs : List SaveRequest) :
    let x := Runs.run (afterSave (saveRequest svc)) (s, l) qs
    validateConfig svc x.1.config = .ok () ∧ x.1.config.Paired x.2 := by
  refine Runs.run_keeps (P := fun x : ProviderStore × EntryLedger => validateConfig svc x.1.config = .ok () ∧ x.1.config.Paired x.2)
    ⟨hvalid, hs⟩ (fun x q hx => ?_) qs
  refine afterSave_keeps (P := fun s l => validateConfig svc s.config = .ok () ∧ s.config.Paired l)
    (save_ends q.draft q.fresh q.revision) hx fun a t ht => ?_
  obtain ⟨next, hmove, hnext, rfl, -⟩ := ht
  refine ⟨hnext, ?_⟩
  cases hmove with
  | save hold hnew hrecord hgiven homitted =>
    exact put_paired hx.2 (integral hx.1).distinct hrecord hold hnew (fun _ => hgiven)
      fun _ => homitted

theorem AppProviders.saves_paired (hvalid : validateConfig svc s.config = .ok ())
    (hs : s.config.Paired l) (qs : List SaveRequest) :
    let x := Runs.run (afterSave (saveRequest svc)) (s, l) qs
    validateConfig svc x.1.config = .ok () ∧ x.1.config.Paired x.2 := by
  refine Runs.run_keeps (P := fun x : ProviderStore × EntryLedger => validateConfig svc x.1.config = .ok () ∧ x.1.config.Paired x.2)
    ⟨hvalid, hs⟩ (fun x q hx => ?_) qs
  refine afterSave_keeps (P := fun s l => validateConfig svc s.config = .ok () ∧ s.config.Paired l)
    (save_ends q.draft q.fresh q.revision) hx fun a t ht => ?_
  obtain ⟨next, hmove, hnext, rfl, -⟩ := ht
  refine ⟨hnext, ?_⟩
  cases hmove with
  | save hold hnew hrecord hnone hgiven homitted =>
    -- a draft without authentication stores no credential
    have hauth : ∀ {r : ProviderRecord}, (q.draft.auth = .none → r.credential = "") →
        r.credential ≠ "" → q.draft.auth ≠ .none := fun h hne hauth => hne (h hauth)
    exact put_paired hx.2 (integral hx.1).distinct hrecord hold hnew
      (fun hne => hgiven (hauth hnone hne)) fun hne => homitted (hauth hnone hne)

/-- A draft without a credential that redirects is refused, on a host always. -/
theorem HostProviders.save_refuses {r : ProviderRecord} {id : String} (hid : q.draft.id = some id)
    (hr : s.config.find id = some r) (hcred : q.draft.credential = none)
    (hredirect : q.draft.Redirects r) :
    (∃ e, ((saveRequest svc q).run s).1 = .error e) ∧ ((saveRequest svc q).run s).2 = s := by
  have h := wp_run (@save_ends svc q.io s q.draft q.fresh q.revision) rfl
  rcases hres : ((saveRequest svc q).run s).1 with e | a
  · exact ⟨⟨e, rfl⟩, h.2 e hres⟩
  · obtain ⟨next, hmove, -⟩ := h.1 a hres
    cases hmove with
    | save hold hnew hrecord hgiven homitted =>
      obtain ⟨r', hold', -, hurl, hauth⟩ := homitted hcred
      obtain ⟨_, hfind, hold⟩ := hold id hid
      obtain rfl := Option.some.inj (hold'.symm.trans hold)
      obtain rfl := Option.some.inj (hr.symm.trans hfind)
      rcases hredirect with h | h
      · exact absurd (by rw [hurl]; exact trimEndSlashes_idem _) h
      · exact absurd hauth h

/-- On the App it is refused unless it gives up authentication; the credential is dropped then. -/
theorem AppProviders.save_refuses {r : ProviderRecord} {id : String} (hid : q.draft.id = some id)
    (hr : s.config.find id = some r) (hcred : q.draft.credential = none)
    (hredirect : q.draft.Redirects r) :
    ((∃ e, ((saveRequest svc q).run s).1 = .error e) ∧ ((saveRequest svc q).run s).2 = s) ∨
      q.draft.auth = .none ∧ ∃ record, ((saveRequest svc q).run s).2.config = s.config.put record ∧
        record.metadata.id = id ∧ record.credential = "" := by
  have h := wp_run (@save_ends svc q.io s q.draft q.fresh q.revision) rfl
  rcases hres : ((saveRequest svc q).run s).1 with e | a
  · exact .inl ⟨⟨e, rfl⟩, h.2 e hres⟩
  · obtain ⟨next, hmove, -, ht, -⟩ := h.1 a hres
    cases hmove with
    | @save _ _ _ _ record hold hnew hrecord hnone hgiven homitted =>
      by_cases hauth : q.draft.auth = .none
      · refine .inr ⟨hauth, record, ?_, ?_, hnone hauth⟩
        · have ht : ((saveRequest svc q).run s).2 = ProviderStore.stored (s.config.put record) := ht
          rw [ht]
          rfl
        · rw [hrecord.fields.1, hid]
          rfl
      · obtain ⟨r', hold', -, hurl, hauth'⟩ := homitted hauth hcred
        obtain ⟨_, hfind, hold⟩ := hold id hid
        obtain rfl := Option.some.inj (hold'.symm.trans hold)
        obtain rfl := Option.some.inj (hr.symm.trans hfind)
        rcases hredirect with h | h
        · exact absurd (by rw [hurl]; exact trimEndSlashes_idem _) h
        · exact absurd hauth' h

theorem ofBase_cases {base credential : String} {protocol : ProviderProtocol} {auth : ProviderAuth}
    {ep : ModelEndpoint} (h : ModelEndpoint.ofBase svc base protocol auth credential = .ok ep) :
    ep.auth = auth ∧ ep.credential = credential ∧
      ∃ url, svc.parseUrl (trim base) = some url ∧
        ep.url = { url with path := modelsPath protocol url.path } := by
  simp only [ModelEndpoint.ofBase, bind_eq_ok, bailIf_eq_ok, orError_eq_ok] at h
  obtain ⟨url, hurl, _, -, _, -, h⟩ := h
  rw [← Except.ok.inj h]
  exact ⟨rfl, rfl, url, hurl, rfl⟩

/-- A stored credential is looked up for the address and the authentication it has. -/
theorem AppProviders.endpointCredential_cases {draft : ProviderDraft} {credential : String}
    (h : endpointCredential s draft = .ok credential) (hcred : draft.credential = none)
    (hauth : draft.auth ≠ .none) :
    ∃ id r, draft.id = some id ∧ s.config.find id = some r ∧ r.credential = credential ∧
      trimEndSlashes r.metadata.baseUrl = trimEndSlashes draft.baseUrl ∧
      r.metadata.auth = draft.auth := by
  unfold endpointCredential at h
  simp only [hcred, if_neg hauth, bind_eq_ok, orError_eq_ok, bailIf_eq_ok, not_or, not_not,
    Except.ok.injEq] at h
  obtain ⟨r, hr, _, ⟨hurl, hauth', -⟩, hcredential⟩ := h
  obtain ⟨id, hid, hfind⟩ := Option.bind_eq_some_iff.1 hr
  exact ⟨id, r, hid, hfind, hcredential, hurl, hauth'⟩

/-- An endpoint that uses a stored credential is below the address the credential was entered with. -/
theorem AppProviders.modelEndpoint_paired (hs : s.config.Paired l) {draft : ProviderDraft}
    {ep : ModelEndpoint} (h : modelEndpoint svc s draft = .ok ep) (hcred : draft.credential = none)
    (hne : ep.credential ≠ "") :
    ∃ id, draft.id = some id ∧ l.Pairs id ep.credential draft.baseUrl ep.auth ∧
      ∃ url, svc.parseUrl (trim draft.baseUrl) = some url ∧
        ep.url = { url with path := modelsPath draft.protocol url.path } := by
  obtain ⟨credential, hstored, h⟩ := bind_eq_ok.1 h
  obtain ⟨hepauth, hepcred, hep⟩ := ofBase_cases h
  have hauth : draft.auth ≠ .none := fun hauth => by
    unfold endpointCredential at hstored
    rw [if_pos hauth] at hstored
    exact hne (hepcred.trans (Except.ok.inj hstored).symm)
  obtain ⟨id, r, hid, hfind, hsame, hurl, hrauth⟩ := endpointCredential_cases hstored hcred hauth
  obtain ⟨hmem, hrid⟩ := find_mem hfind
  obtain ⟨e, he, hec, heu, hea⟩ := hs r hmem (hsame.trans hepcred.symm ▸ hne)
  refine ⟨id, hid, ⟨e, hrid ▸ he, ?_, heu.trans hurl, ?_⟩, hep⟩
  · rw [hec, hsame, hepcred]
  · rw [hea, hrauth, hepauth]

/-- A lookup without a credential for a redirected provider is refused, unless it uses none. -/
theorem AppProviders.modelEndpoint_refuses {draft : ProviderDraft} {r : ProviderRecord} {id : String}
    (hid : draft.id = some id) (hr : s.config.find id = some r) (hcred : draft.credential = none)
    (hredirect : trimEndSlashes r.metadata.baseUrl ≠ trimEndSlashes draft.baseUrl ∨
      r.metadata.auth ≠ draft.auth) (hauth : draft.auth ≠ .none) :
    ∃ e, modelEndpoint svc s draft = .error e := by
  rcases h : modelEndpoint svc s draft with e | ep
  · exact ⟨e, rfl⟩
  · obtain ⟨credential, hstored, -⟩ := bind_eq_ok.1 h
    obtain ⟨id', r', hid', hfind, -, hurl, hrauth⟩ := endpointCredential_cases hstored hcred hauth
    obtain rfl := Option.some.inj (hid.symm.trans hid')
    obtain rfl := Option.some.inj (hr.symm.trans hfind)
    exact (hredirect.elim (fun h => h hurl) fun h => h hrauth).elim

/-- In every run of saves over a store that was opened, on a host and on the App, each stored
credential is paired with the address and the authentication it was last entered with, and so is
each one that a model lookup uses. A draft or a lookup that leaves the credential out and changes
either is refused and changes nothing; on the App, one that gives up authentication is not refused,
and then the credential is not used and a save drops it. -/
theorem credential_stays (svc : ProviderServices) (fresh : List String)
    (file : Option ProviderConfig) :
    (∀ s₀ qs, HostProviders.open svc fresh file = .ok s₀ →
      let x := Runs.run (afterSave (HostProviders.saveRequest svc)) (s₀, .ofConfig s₀.config) qs
      x.1.config.Paired x.2 ∧
      ∀ q id r, q.draft.id = some id → x.1.config.find id = some r → q.draft.credential = none →
        q.draft.Redirects r →
        (∃ e, ((HostProviders.saveRequest svc q).run x.1).1 = .error e) ∧
          ((HostProviders.saveRequest svc q).run x.1).2 = x.1) ∧
    (∀ io legacy s₀ qs, AppProviders.open svc io fresh file legacy = .ok s₀ →
      let x := Runs.run (afterSave (AppProviders.saveRequest svc)) (s₀, .ofConfig s₀.config) qs
      x.1.config.Paired x.2 ∧
      (∀ q id r, q.draft.id = some id → x.1.config.find id = some r → q.draft.credential = none →
        q.draft.Redirects r →
        ((∃ e, ((AppProviders.saveRequest svc q).run x.1).1 = .error e) ∧
          ((AppProviders.saveRequest svc q).run x.1).2 = x.1) ∨
        q.draft.auth = .none ∧
          ∃ record, ((AppProviders.saveRequest svc q).run x.1).2.config = x.1.config.put record ∧
            record.metadata.id = id ∧ record.credential = "") ∧
      (∀ draft ep, AppProviders.modelEndpoint svc x.1 draft = .ok ep → draft.credential = none →
        ep.credential ≠ "" → ∃ id, draft.id = some id ∧
          x.2.Pairs id ep.credential draft.baseUrl ep.auth ∧
          ∃ url, svc.parseUrl (trim draft.baseUrl) = some url ∧
            ep.url = { url with path := modelsPath draft.protocol url.path }) ∧
      ∀ draft id r, draft.id = some id → x.1.config.find id = some r → draft.credential = none →
        (trimEndSlashes r.metadata.baseUrl ≠ trimEndSlashes draft.baseUrl ∨
          r.metadata.auth ≠ draft.auth) → draft.auth ≠ .none →
        ∃ e, AppProviders.modelEndpoint svc x.1 draft = .error e) := by
  refine ⟨fun s₀ qs h => ?_, fun io legacy s₀ qs h => ?_⟩
  · have hvalid := (host_open h).1
    have hpaired := ofConfig_paired (HostProviders.integral hvalid).distinct
    obtain ⟨-, hx⟩ := HostProviders.saves_paired hvalid hpaired qs
    exact ⟨hx, fun q id r => HostProviders.save_refuses⟩
  · have hvalid := (app_open h).1
    have hpaired := ofConfig_paired (AppProviders.integral hvalid).distinct
    obtain ⟨-, hx⟩ := AppProviders.saves_paired hvalid hpaired qs
    exact ⟨hx, fun q id r => AppProviders.save_refuses,
      fun draft ep => AppProviders.modelEndpoint_paired hx,
      fun draft id r => AppProviders.modelEndpoint_refuses⟩

end

namespace AppProviders

/-- Services for which every address is an HTTPS one. -/
def everyUrl : ProviderServices where
  parseUrl _ := some
    { scheme := "https", host := some "api", username := "", password := none, query := none
      fragment := none }
  prettySize _ := 0

/-- A file with one provider and its credential. -/
def bearerFile : ProviderConfig where
  providers := [{
    metadata :=
      { id := "p", name := "P", protocol := .anthropicMessages, baseUrl := "https://api", model := "m"
        models := [], modelLabels := [], models1m := [], auth := .bearer, revision := "1" }
    credential := "k" }]

/-- Give up the authentication of that provider, with no credential in the draft. -/
def giveUp : SaveRequest where
  draft :=
    { id := some "p", name := "P", protocol := .anthropicMessages, baseUrl := "https://api", model := "m"
      auth := .none }
  fresh := "q"
  revision := "2"

/-- The draft changes the authentication and is accepted: the store changes, and the credential is
gone. -/
theorem giveUp_accepted :
    AppProviders.open everyUrl {} [] (some bearerFile) none =
      .ok { file := some bearerFile, config := bearerFile } ∧
    (∃ r ∈ bearerFile.providers, giveUp.draft.id = some r.metadata.id ∧
      giveUp.draft.credential = none ∧ giveUp.draft.Redirects r) ∧
    let (result, s) := (saveRequest everyUrl giveUp).run { file := some bearerFile, config := bearerFile }
    result.isOk = true ∧ s.config.providers.map (·.credential) = [""] := by
  refine ⟨by rfl, ⟨_, List.mem_singleton.2 rfl, rfl, rfl, .inr (by decide)⟩, ?_⟩
  decide +kernel

end AppProviders

end LatteWork
