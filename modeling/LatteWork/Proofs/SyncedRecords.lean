import LatteWork.Proofs.ProviderIntegrity

/-!
# Records that another machine installed

A synced record came with a binding, and `bind` and `sync` remove it with its last one. The two
requests about remote hosts do not look for it.
-/

namespace LatteWork

open Fallible Prog ProviderConfig

/-- Every synced record is used by a binding. -/
def ProviderConfig.NoOrphans (c : ProviderConfig) : Prop :=
  ∀ r ∈ c.providers, r.synced = true → c.bound r.metadata.id = true

/-- A provider is bound beside what a remote host binds the named agents to. -/
def ProviderConfig.BoundBeside (c : ProviderConfig) (host : String) (agents : String → Prop)
    (id : String) : Prop :=
  (∃ p ∈ c.bindings.entries, p.2 = id) ∨
    ∃ q ∈ c.hostBindings.entries, ∃ p ∈ q.2.entries, p.2 = id ∧ ¬(q.1 = host ∧ agents p.1)

/-- A request about a remote host leaves every synced record in use. -/
def ProviderConfig.LeavesBound (c : ProviderConfig) : HostProviderOp → Prop
  | .bindHost host agent id => ∀ r ∈ c.providers, r.synced = true →
      id = some r.metadata.id ∨ c.BoundBeside host (· = agent) r.metadata.id
  | .forgetHost host => ∀ r ∈ c.providers, r.synced = true →
      c.BoundBeside host (fun _ => True) r.metadata.id
  | _ => True

section

variable {c next : ProviderConfig} {id : String}

theorem bound_iff : c.bound id = true ↔ (∃ p ∈ c.bindings.entries, p.2 = id) ∨
    ∃ q ∈ c.hostBindings.entries, ∃ p ∈ q.2.entries, p.2 = id := by
  unfold ProviderConfig.bound
  rw [List.any_eq_true]
  simp only [mem_associations, decide_eq_true_eq]
  constructor
  · rintro ⟨p, hp | ⟨q, hq, hp⟩, hid⟩
    · exact .inl ⟨p, hp, hid⟩
    · exact .inr ⟨q, hq, p, hp, hid⟩
  · rintro (⟨p, hp, hid⟩ | ⟨q, hq, p, hp, hid⟩)
    · exact ⟨p, .inl hp, hid⟩
    · exact ⟨p, .inr ⟨q, hq, hp⟩, hid⟩

theorem mem_putRecord {record r : ProviderRecord} : ∀ {l : List ProviderRecord},
    r ∈ putRecord record l → r = record ∨ r ∈ l
  | [], h => .inl (List.mem_singleton.1 h)
  | q :: rest, h => by
    unfold putRecord at h
    split_ifs at h
    · exact (List.mem_cons.1 h).imp_right (List.mem_cons_of_mem _)
    · rcases List.mem_cons.1 h with rfl | h
      · exact .inr List.mem_cons_self
      · exact (mem_putRecord h).imp_right (List.mem_cons_of_mem _)

theorem prune_noOrphans : c.prune.NoOrphans := by
  intro r hr hsynced
  obtain ⟨-, hkept⟩ := List.mem_filter.1 hr
  rw [hsynced] at hkept
  exact hkept

/-- What a host's bindings are after one of them was set or taken away. -/
theorem bound_insertHost {host : String} (agent : String) {bindings : OrdMap String String}
    (hother : ∀ p, p.1 ≠ agent → (p ∈ bindings.entries ↔
      p ∈ ((c.hostBindings.find? host).getD OrdMap.empty).entries)) :
    ({ c with hostBindings := c.hostBindings.insert host bindings } : ProviderConfig).bound id = true ↔
      (∃ p ∈ bindings.entries, p.1 = agent ∧ p.2 = id) ∨ c.BoundBeside host (· = agent) id := by
  have hfound : ∀ q ∈ c.hostBindings.entries, q.1 = host →
      (c.hostBindings.find? host).getD OrdMap.empty = q.2 := by
    rintro ⟨h, b⟩ hq rfl
    rw [OrdMap.find?_eq_some.2 hq]
    rfl
  simp only [bound_iff, OrdMap.mem_insert, ProviderConfig.BoundBeside]
  constructor
  · rintro (h | ⟨q, rfl | ⟨hq, hhost⟩, p, hp, hid⟩)
    · exact .inr (.inl h)
    · by_cases hagent : p.1 = agent
      · exact .inl ⟨p, hp, hagent, hid⟩
      · have hp := (hother p hagent).1 hp
        rcases hfind : c.hostBindings.find? host with - | b <;> rw [hfind] at hp
        · cases hp
        · exact .inr (.inr ⟨(host, b), OrdMap.find?_eq_some.1 hfind, p, hp, hid, fun h => hagent h.2⟩)
    · exact .inr (.inr ⟨q, hq, p, hp, hid, fun h => hhost h.1⟩)
  · rintro (⟨p, hp, -, hid⟩ | h | ⟨q, hq, p, hp, hid, hbeside⟩)
    · exact .inr ⟨(host, bindings), .inl rfl, p, hp, hid⟩
    · exact .inl h
    · by_cases hhost : q.1 = host
      · refine .inr ⟨(host, bindings), .inl rfl, p, ?_, hid⟩
        rw [hother p fun h => hbeside ⟨hhost, h⟩, hfound q hq hhost]
        exact hp
      · exact .inr ⟨q, .inr ⟨hq, hhost⟩, p, hp, hid⟩

/-- One request keeps synced records in use exactly when it leaves them bound. -/
theorem move_noOrphans {o : HostProviderOp} (h : HostProviders.Move c o next) (hc : c.NoOrphans) :
    next.NoOrphans ↔ c.LeavesBound o := by
  cases h with
  | save _ _ hrecord =>
    refine iff_of_true (fun r hr hsynced => ?_) trivial
    rcases mem_putRecord hr with rfl | hr
    · rw [hrecord.unsynced] at hsynced
      cases hsynced
    · exact hc r hr hsynced
  | bind => exact iff_of_true prune_noOrphans trivial
  | unbind => exact iff_of_true prune_noOrphans trivial
  | sync => exact iff_of_true prune_noOrphans trivial
  | unsync => exact iff_of_true prune_noOrphans trivial
  | delete _ =>
    exact iff_of_true (fun r hr hsynced => hc r (List.mem_filter.1 hr).1 hsynced) trivial
  | @bindHost host agent id =>
    refine forall₃_congr fun r _ _ => ?_
    rw [bound_insertHost agent fun p hp => by simp [hp, Prod.ext_iff]]
    refine or_congr_left ⟨?_, fun h => ?_⟩
    · rintro ⟨p, hp, hagent, hid⟩
      rcases OrdMap.mem_insert.1 hp with rfl | ⟨-, hne⟩
      · exact congrArg some hid
      · exact absurd hagent hne
    · exact ⟨(agent, id), OrdMap.mem_insert.2 (.inl rfl), rfl, Option.some.inj h⟩
  | @unbindHost host agent =>
    refine forall₃_congr fun r _ _ => ?_
    rw [bound_insertHost agent fun p hp => by simp [hp]]
    refine or_congr_left ⟨?_, fun h => nomatch h⟩
    rintro ⟨p, hp, hagent, -⟩
    exact absurd hagent (OrdMap.mem_erase.1 hp).2
  | @forgetHost host =>
    refine forall₃_congr fun r _ _ => ?_
    simp only [bound_iff, OrdMap.mem_erase, ProviderConfig.BoundBeside, and_true]
    refine or_congr_right ⟨?_, ?_⟩
    · rintro ⟨q, ⟨hq, hhost⟩, p, hp, hid⟩
      exact ⟨q, hq, p, hp, hid, hhost⟩
    · rintro ⟨q, hq, p, hp, hid, hhost⟩
      exact ⟨q, ⟨hq, hhost⟩, p, hp, hid⟩

end

namespace HostProviders

variable {svc : ProviderServices}

/-- A request that ends well. -/
def Accepted (svc : ProviderServices) (s : ProviderStore) (o : HostProviderOp × PersistIo) : Prop :=
  ∃ a, ((perform svc o.2 o.1).run s).1 = .ok a

theorem step_cases (s : ProviderStore) (o : HostProviderOp × PersistIo) :
    (Accepted svc s o ∧ Move s.config o.1 (step svc s o).config) ∨
      (¬Accepted svc s o ∧ step svc s o = s) := by
  have h := wp_run (@perform_ends svc o.2 s o.1) rfl
  rcases hr : ((perform svc o.2 o.1).run s).1 with e | a
  · refine .inr ⟨?_, h.2 e hr⟩
    rintro ⟨a, ha⟩
    rw [hr] at ha
    cases ha
  · obtain ⟨next, hmove, -, ht, -⟩ := h.1 a hr
    refine .inl ⟨⟨a, hr⟩, ?_⟩
    have hstep : step svc s o = ProviderStore.stored next := ht
    rw [hstep]
    exact hmove

/-- Over every run of a host's store, from any configuration: synced records stay in use exactly
when they were at the start and every request about a remote host that ends well leaves each of
them another binding. -/
theorem synced_inUse_iff (svc : ProviderServices) (s₀ : ProviderStore)
    (ops : List (HostProviderOp × PersistIo)) :
    (∀ ahead, ahead <+: ops → (Runs.run (step svc) s₀ ahead).config.NoOrphans) ↔
      s₀.config.NoOrphans ∧ ∀ ahead o, ahead ++ [o] <+: ops →
        Accepted svc (Runs.run (step svc) s₀ ahead) o →
          (Runs.run (step svc) s₀ ahead).config.LeavesBound o.1 := by
  have hstep : ∀ s o, s.config.NoOrphans → ((step svc s o).config.NoOrphans ↔
      (Accepted svc s o → s.config.LeavesBound o.1)) := by
    intro s o hs
    rcases @step_cases svc s o with ⟨hok, hmove⟩ | ⟨hno, hsame⟩
    · rw [move_noOrphans hmove hs]
      exact ⟨fun h _ => h, fun h => h hok⟩
    · rw [hsame]
      exact iff_of_true hs fun h => absurd h hno
  have hiff (hP : s₀.config.NoOrphans) :
      (∀ ahead, ahead <+: ops → (Runs.run (step svc) s₀ ahead).config.NoOrphans) ↔
        ∀ ahead o, ahead ++ [o] <+: ops → Accepted svc (Runs.run (step svc) s₀ ahead) o →
          (Runs.run (step svc) s₀ ahead).config.LeavesBound o.1 :=
    Runs.prefixes_iff (J := fun _ => True) (P := fun s => s.config.NoOrphans)
      (C := fun s o => Accepted svc s o → s.config.LeavesBound o.1) (A := fun _ => True)
      trivial (fun _ _ _ => trivial) hP (fun s o _ _ => hstep s o) fun _ _ => trivial
  constructor
  · intro h
    have hP : s₀.config.NoOrphans := h [] (List.nil_prefix)
    exact ⟨hP, (hiff hP).1 h⟩
  · rintro ⟨hP, h⟩
    exact (hiff hP).2 h

/-- Every address parses here to the same one. -/
def anywhere : ProviderServices where
  parseUrl _ := some
    { scheme := "https", host := some "api", username := "", password := none, query := none
      fragment := none }
  prettySize _ := 0

/-- A provider that an App installs, with its credential. -/
def installed : ProviderSnapshot where
  provider :=
    { id := "p", name := "P", protocol := .anthropicMessages, baseUrl := "https://api", model := "m"
      models := [], modelLabels := [], models1m := [], auth := .bearer }
  credential := "k"

/-- Install a provider, bind it for a remote host, unbind it here, and forget the host. -/
def disconnect : List (HostProviderOp × PersistIo) :=
  [(.sync "claude" (some installed), {}), (.bindHost "h" "claude" (some "p"), {}),
    (.bind "claude" none, {}), (.forgetHost "h", {})]

/-- The credential is still in the configuration, and no binding is left. -/
theorem forgotten_host_orphan :
    let c := (Runs.run (step anywhere) { file := none, config := {} } disconnect).config
    c.providers = [{ synced := true, metadata := installed.provider, credential := "k" }] ∧
      c.associations = [] ∧ ¬c.NoOrphans := by
  have hrun : (Runs.run (step anywhere) { file := none, config := {} } disconnect).config =
      { providers := [{ synced := true, metadata := installed.provider, credential := "k" }] } := by
    decide +kernel
  simp only [hrun]
  refine ⟨trivial, rfl, fun h => ?_⟩
  have := h _ (List.mem_singleton.2 rfl) rfl
  revert this
  decide

end HostProviders

end LatteWork
