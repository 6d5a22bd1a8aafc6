import LatteWork.Proofs.HostCalls

/-!
# Quitting closes what the desktop owns

Every close that succeeds takes its resources out of the tables and is confirmed, so at any time the
tables have exactly what was tracked and not confirmed. A host that can be reached refuses nothing
but a batch that is not well formed, so it keeps a resource only if more of them were claimed on it
than fit in a batch.
-/

namespace LatteWork

namespace Connections

/-- The desktop tracks a resource of a host. -/
def Tracks (s : Connections) (host : String) (r : Resource) : Prop :=
  (host, r) ∈ s.ownedInstances ∨
    match r with
    | .agentSession id => (host, id) ∈ s.turns
    | .terminal id => (host, id) ∈ s.terminals

/-- What was claimed on an instance of a host. -/
def claimedOn (s : Connections) (host server : String) : List Resource :=
  OrdMap.under (s.ownedInstances.entries.map fun e => (toLex (e.1.1, e.2), e.1.2))
    (toLex (host, server))

variable {s : Connections} {host server : String} {r : Resource}

theorem mem_claimedOn :
    r ∈ s.claimedOn host server ↔ s.ownedInstances.lookup (host, r) = some server := by
  rw [claimedOn, OrdMap.mem_under, ← Option.mem_def, AList.mem_lookup_iff, List.mem_map]
  constructor
  · rintro ⟨⟨⟨h, r'⟩, v⟩, hmem, heq⟩
    simp only [Prod.mk.injEq, EmbeddingLike.apply_eq_iff_eq] at heq
    obtain ⟨⟨rfl, rfl⟩, rfl⟩ := heq
    exact hmem
  · exact fun h => ⟨_, h, rfl⟩

/-- The batches are what was claimed on the instances. -/
theorem mem_batches {resources : List Resource} :
    (toLex (host, server), resources) ∈ s.batches ↔
      resources = s.claimedOn host server ∧ resources ≠ [] := by
  rw [batches, (List.perm_insertionSort _ _).mem_iff, grouped, OrdMap.mem_collect]
  rfl

theorem batches_nodup : (s.batches.map (·.1)).Nodup :=
  ((List.perm_insertionSort _ _).map _).nodup_iff.2 (OrdMap.keys_nodup _)

theorem mem_localFirst {β : Type} {table : HashMap (String × String) β} {key : String × String} :
    key ∈ localFirst table ↔ key ∈ table := by
  rw [localFirst, (List.perm_insertionSort _ _).mem_iff, AList.mem_keys]

end Connections

open Connections

section

variable (s : Connections) (w : World)

/-- A resource is closed: what was claimed on the running instance and owned there is gone, and so
is what was not claimed. -/
def ClosedOn (v : World) (host : String) (r : Resource) : Prop :=
  match s.ownedInstances.lookup (host, r) with
  | some server =>
    server = (w.services host).serverId →
      (w.services host).owners.lookup r = some s.owner → (v.services host).holds r = false
  | none => (v.services host).holds r = false

/-- What the tables have is what was tracked and is not confirmed to be closed. -/
structure Books (d : Connections) (v : World) : Prop where
  owner : d.owner = s.owner
  failing : v.failing = w.failing
  fewer : ∀ host, (v.services host).Fewer (w.services host)
  owned : ∀ host r server, d.ownedInstances.lookup (host, r) = some server ↔
    s.ownedInstances.lookup (host, r) = some server ∧ ¬v.Confirmed host r
  turns : ∀ host id, (host, id) ∈ d.turns ↔
    (host, id) ∈ s.turns ∧ ¬v.Confirmed host (.agentSession id)
  terminals : ∀ host id, (host, id) ∈ d.terminals ↔
    (host, id) ∈ s.terminals ∧ ¬v.Confirmed host (.terminal id)
  closed : ∀ host r, v.Confirmed host r → w.failing host = false → ClosedOn s w v host r
  sent : ∀ host request, v.Sent host request →
    request.closes = true ∧ ∀ r ∈ request.resources, s.Tracks host r

/-- The tables after a call: those of before without the resources, if it succeeded. -/
structure Settles (d d' : Connections) (host : String) (resources : List Resource) (ok : Prop) :
    Prop where
  owner : d'.owner = d.owner
  owned : ∀ h r server, d'.ownedInstances.lookup (h, r) = some server ↔
    d.ownedInstances.lookup (h, r) = some server ∧ ¬(ok ∧ h = host ∧ r ∈ resources)
  turns : ∀ h id, (h, id) ∈ d'.turns ↔
    (h, id) ∈ d.turns ∧ ¬(ok ∧ h = host ∧ .agentSession id ∈ resources)
  terminals : ∀ h id, (h, id) ∈ d'.terminals ↔
    (h, id) ∈ d.terminals ∧ ¬(ok ∧ h = host ∧ .terminal id ∈ resources)

variable {s w} {d d' : Connections} {v v' : World} {host : String} {resources : List Resource}
  {ok : Prop}

theorem ClosedOn.of_fewer {r : Resource} (h : ClosedOn s w v host r)
    (hf : (v'.services host).Fewer (v.services host)) : ClosedOn s w v' host r := by
  unfold ClosedOn at h ⊢
  rcases hlook : s.ownedInstances.lookup (host, r) with _ | server
  · rw [hlook] at h
    exact hf.not_holds h
  · rw [hlook] at h
    exact fun hserver howner => hf.not_holds (h hserver howner)

/-- A call keeps the books. -/
theorem Books.call (hb : Books s w d v) (hc : World.Closing v v' host resources ok)
    (hs : Settles d d' host resources ok) (htracks : ∀ r ∈ resources, s.Tracks host r)
    (hclosed : ok → w.failing host = false → ∀ r ∈ resources, ClosedOn s w v' host r) :
    Books s w d' v' := by
  refine ⟨hs.owner.trans hb.owner, hc.failing.trans hb.failing,
    fun h => (hc.fewer h).trans (hb.fewer h), fun h r server => ?_, fun h id => ?_, fun h id => ?_,
    fun h r hr hfail => ?_, fun h request hsent => ?_⟩
  · rw [hs.owned, hb.owned, hc.confirmed, not_or, and_assoc]
  · rw [hs.turns, hb.turns, hc.confirmed, not_or, and_assoc]
  · rw [hs.terminals, hb.terminals, hc.confirmed, not_or, and_assoc]
  · rcases (hc.confirmed h r).1 hr with hr | ⟨hok, rfl, hr⟩
    · exact (hb.closed h r hr hfail).of_fewer (hc.fewer h)
    · exact hclosed hok hfail r hr
  · rcases hc.sent h request hsent with hsent | ⟨rfl, hcloses, hsub⟩
    · exact hb.sent h request hsent
    · exact ⟨hcloses, fun r hr => htracks r (hsub hr)⟩

theorem Books.tracks_iff (hb : Books s w d v) {r : Resource} :
    d.Tracks host r ↔ s.Tracks host r ∧ ¬v.Confirmed host r := by
  have hown : (host, r) ∈ d.ownedInstances ↔ (host, r) ∈ s.ownedInstances ∧ ¬v.Confirmed host r := by
    rw [← AList.lookup_isSome, ← AList.lookup_isSome, Option.isSome_iff_exists,
      Option.isSome_iff_exists]
    simp [hb.owned]
  unfold Tracks
  rw [hown, or_and_right]
  cases r with
  | agentSession id => exact or_congr_right (hb.turns host id)
  | terminal id => exact or_congr_right (hb.terminals host id)

theorem Books.start (hlog : w.log = []) : Books s w s w := by
  have hnone : ∀ host r, ¬w.Confirmed host r := fun host r ⟨_, h, _⟩ => by simp [hlog] at h
  refine ⟨rfl, rfl, fun h => .refl _, ?_, ?_, ?_, fun h r hr => absurd hr (hnone h r),
    fun h request hs => by simp [World.Sent, hlog] at hs⟩ <;> simp [hnone]

theorem Settles.kept {clients : HashMap String Client} (hok : ¬ok) :
    Settles d { d with clients } host resources ok := by
  refine ⟨rfl, ?_, ?_, ?_⟩ <;> simp [hok]

/-- Releasing resources takes them out of every table. -/
theorem settles_release : ∀ (resources : List Resource) (d : Connections),
    Settles d (resources.foldl (·.release host ·) d) host resources True
  | [], d => by refine ⟨rfl, ?_, ?_, ?_⟩ <;> simp
  | r :: rest, d => by
    have hrest := settles_release rest (d.release host r)
    have howned : ∀ h r' server, (d.release host r).ownedInstances.lookup (h, r') = some server ↔
        d.ownedInstances.lookup (h, r') = some server ∧ ¬(h = host ∧ r' = r) := by
      intro h r' server
      have : (d.release host r).ownedInstances = d.ownedInstances.erase (host, r) := by
        cases r <;> rfl
      rw [this]
      by_cases hkey : (h, r') = (host, r)
      · obtain ⟨rfl, rfl⟩ := Prod.mk.inj hkey
        simp
      · rw [AList.lookup_erase_ne hkey]
        have : ¬(h = host ∧ r' = r) := fun ⟨hh, hr⟩ => hkey (by rw [hh, hr])
        simp [this]
    refine ⟨hrest.owner.trans (by cases r <;> rfl), fun h r' server => ?_, fun h id => ?_,
      fun h id => ?_⟩
    · rw [List.foldl_cons, hrest.owned, howned, and_assoc]
      refine and_congr_right fun _ => ?_
      simp only [true_and, List.mem_cons, and_or_left, not_or]
    · rw [List.foldl_cons, hrest.turns]
      cases r with
      | agentSession other =>
        simp only [release, AList.mem_erase, ne_eq, Prod.mk.injEq, true_and, List.mem_cons,
          Resource.agentSession.injEq, and_or_left, not_or]
        tauto
      | terminal other => simp [release]
    · rw [List.foldl_cons, hrest.terminals]
      cases r with
      | agentSession other => simp [release]
      | terminal other =>
        simp only [release, AList.mem_erase, ne_eq, Prod.mk.injEq, true_and, List.mem_cons,
          Resource.terminal.injEq, and_or_left, not_or]
        tauto

/-- A host that can be reached refuses the batch of its running instance. -/
def Refused (s : Connections) (w : World) (host : String) : Prop :=
  s.claimedOn host (w.services host).serverId ≠ [] ∧
    validateResources s.owner (s.claimedOn host (w.services host).serverId) ≠ .ok ()

end

section

variable (s : Connections) (w : World)

/-- What holds behind some of the batches. -/
structure Batched (done : List ((String ×ₗ String) × List Resource)) (q : Quit) : Prop where
  books : Books s w q.desktop q.world
  confirmed : ∀ host r, q.world.Confirmed host r → ∃ b ∈ done, (ofLex b.1).1 = host ∧ r ∈ b.2
  closed : ∀ b ∈ done, (ofLex b.1).1 ∉ q.failedHosts →
    ∀ r ∈ b.2, q.world.Confirmed (ofLex b.1).1 r
  failed : ∀ host ∈ q.failedHosts, ∃ b ∈ done, (ofLex b.1).1 = host ∧
    (∀ r ∈ b.2, ¬q.world.Confirmed host r) ∧ (w.failing host = false → Refused s w host)
  refused : ∀ host, w.failing host = false → Refused s w host →
    (toLex (host, (w.services host).serverId), s.claimedOn host (w.services host).serverId) ∈ done →
      host ∈ q.failedHosts ∧
        ∀ r ∈ s.claimedOn host (w.services host).serverId, ¬q.world.Confirmed host r
  errors : q.errors = [] ↔ q.failedHosts = []

/-- What holds from the first turn on. -/
structure Settling (q : Quit) : Prop where
  books : Books s w q.desktop q.world
  unclaimed : ∀ host ∉ q.failedHosts, ∀ r, q.desktop.ownedInstances.lookup (host, r) = none
  failed : ∀ host ∈ q.failedHosts, ∃ r, s.Tracks host r ∧ ¬q.world.Confirmed host r
  reached : ∀ host ∈ q.failedHosts, w.failing host = false → Refused s w host
  refused : ∀ host, w.failing host = false → Refused s w host → host ∈ q.failedHosts ∧
    ∀ r ∈ s.claimedOn host (w.services host).serverId, ¬q.world.Confirmed host r
  errors : q.errors = [] ↔ q.failedHosts = []

variable {s w}

theorem tracks_of_claimed {host server : String} {r : Resource} (h : r ∈ s.claimedOn host server) :
    s.Tracks host r :=
  .inl (AList.lookup_isSome.1 (by rw [mem_claimedOn.1 h]; rfl))

/-- Two batches with a resource of one host in common are one. -/
theorem batch_key {b b' : (String ×ₗ String) × List Resource} (hb : b ∈ s.batches)
    (hb' : b' ∈ s.batches) (hhost : (ofLex b.1).1 = (ofLex b'.1).1) {r : Resource} (hr : r ∈ b.2)
    (hr' : r ∈ b'.2) : b.1 = b'.1 := by
  obtain ⟨⟨host, server⟩, resources⟩ := b
  obtain ⟨⟨host', server'⟩, resources'⟩ := b'
  obtain rfl : host = host' := hhost
  obtain ⟨rfl, -⟩ := mem_batches.1 hb
  obtain ⟨rfl, -⟩ := mem_batches.1 hb'
  have h := mem_claimedOn.1 hr
  have h' := mem_claimedOn.1 hr'
  rw [h] at h'
  rw [Option.some.inj h']

theorem Batched.start (hlog : w.log = []) : Batched s w [] { desktop := s, world := w } := by
  refine ⟨.start hlog, fun host r ⟨_, h, _⟩ => by simp [hlog] at h, ?_, ?_, ?_, ?_⟩ <;> simp

/-- A batch fails and its host is left alone from then on, or everything in it is closed. -/
theorem stopBatch_cases (q : Quit) (host server : String) (resources : List Resource) :
    ∃ v,
      ((∃ e, q.stopBatch (toLex (host, server), resources) = { q with world := v }.fail host e) ∧
        World.Closing q.world v host resources False ∧
        (q.world.failing host = false → server = (q.world.services host).serverId ∧
          validateResources q.desktop.owner resources ≠ .ok ())) ∨
      (q.stopBatch (toLex (host, server), resources) =
          { q with world := v, desktop := resources.foldl (·.release host ·) q.desktop } ∧
        World.Closing q.world v host resources True ∧
        (q.world.failing host = false → server = (q.world.services host).serverId →
          validateResources q.desktop.owner resources = .ok () ∧
          ∀ r ∈ resources, (v.services host).owners.lookup r ≠ some q.desktop.owner)) := by
  have hconnect := @World.connect_closing q.world host resources
  unfold Quit.stopBatch
  rcases hx : q.world.connect host with ⟨e | client, v⟩
  · rw [hx] at hconnect
    refine ⟨v, .inl ⟨⟨e, by simp [hx]⟩, hconnect, fun hfail => ?_⟩⟩
    rw [World.connect_reachable hfail] at hx
    cases hx
  rw [hx] at hconnect
  have hclose := @World.closeOwnedResources_closing v host client resources server q.desktop.owner
  have hreach : q.world.failing host = false → v = q.world ∧
      client = { serverId := (q.world.services host).serverId } := by
    intro hfail
    rw [World.connect_reachable hfail] at hx
    simp only [Prod.mk.injEq, Except.ok.injEq] at hx
    exact ⟨hx.2.symm, hx.1.symm⟩
  have hgood : q.world.failing host = false → _ := fun hfail =>
    @World.closeOwnedResources_reachable q.world host { serverId := (q.world.services host).serverId }
      resources server q.desktop.owner hfail rfl rfl rfl
  rcases hy : v.closeOwnedResources host client server q.desktop.owner resources with
    ⟨e | ⟨⟩, client', v'⟩
  · rw [hy] at hclose
    refine ⟨v', .inl ⟨⟨e, by simp [hx, hy]⟩, hconnect.then (hclose.congr (by simp)), fun hfail => ?_⟩⟩
    obtain ⟨rfl, rfl⟩ := hreach hfail
    have := (hgood hfail).1
    rw [hy] at this
    simpa using this
  · rw [hy] at hclose
    refine ⟨v', .inr ⟨by simp [hx, hy], hconnect.then (hclose.congr (by simp)), fun hfail hserver => ?_⟩⟩
    obtain ⟨rfl, rfl⟩ := hreach hfail
    have := hgood hfail
    rw [hy] at this
    exact ⟨this.1.1 rfl hserver, this.2 rfl hserver⟩

/-- The next batch. -/
theorem Batched.step {done : List ((String ×ₗ String) × List Resource)} {q : Quit}
    {b : (String ×ₗ String) × List Resource} (h : Batched s w done q)
    (hdone : ∀ b' ∈ done, b' ∈ s.batches) (hb : b ∈ s.batches) (hnew : b.1 ∉ done.map (·.1)) :
    Batched s w (done ++ [b]) (q.stopBatch b) := by
  obtain ⟨⟨host, server⟩, resources⟩ := b
  obtain ⟨hres, hne⟩ := mem_batches.1 hb
  have htracks : ∀ r ∈ resources, s.Tracks host r := fun r hr =>
    @tracks_of_claimed s host server r (hres ▸ hr)
  have hserverId := (h.books.fewer host).serverId
  have hfailing := congrFun h.books.failing host
  have howner := h.books.owner
  have hfresh : ∀ r ∈ resources, ¬q.world.Confirmed host r := by
    intro r hr hconf
    obtain ⟨b', hb', hhost, hr'⟩ := h.confirmed host r hconf
    have hkey := batch_key hb (hdone b' hb') hhost.symm hr hr'
    exact hnew (List.mem_map.2 ⟨b', hb', hkey.symm⟩)
  have hother : ∀ b' ∈ done, (ofLex b'.1).1 = host → ∀ r ∈ b'.2, r ∉ resources := by
    intro b' hb' hhost r hr' hr
    exact hnew (List.mem_map.2 ⟨b', hb', batch_key (hdone b' hb') hb hhost hr' hr⟩)
  change Batched s w _ (q.stopBatch (toLex (host, server), resources))
  rcases stopBatch_cases q host server resources with
    ⟨v, ⟨⟨e, hq⟩, hcall, hwhy⟩ | ⟨hq, hcall, hwhy⟩⟩
  · have hconf : ∀ h r, v.Confirmed h r ↔ q.world.Confirmed h r := fun h r => by
      rw [hcall.confirmed]
      simp
    rw [hq]
    refine ⟨h.books.call hcall (.kept not_false) htracks (fun hok => hok.elim),
      fun x r hr => ?_, fun b' hb' hx r hr => ?_, fun x hx => ?_, fun x hfail href hx => ?_, ?_⟩
    · obtain ⟨b', hb', hr'⟩ := h.confirmed x r ((hconf x r).1 hr)
      exact ⟨b', List.mem_append_left _ hb', hr'⟩
    · obtain ⟨hnot, hx⟩ := not_or.1 fun hmem => hx (List.mem_cons.2 hmem)
      rcases List.mem_append.1 hb' with hb' | hb'
      · exact (hconf _ _).2 (h.closed b' hb' hx r hr)
      · obtain rfl := List.mem_singleton.1 hb'
        exact absurd rfl hnot
    · rcases List.mem_cons.1 hx with rfl | hx
      · refine ⟨_, List.mem_append_right _ List.mem_cons_self, rfl,
          fun r hr hr' => hfresh r hr ((hconf _ _).1 hr'), fun hfail => ?_⟩
        obtain ⟨hserver, hvalid⟩ := hwhy (hfailing.trans hfail)
        rw [hserverId] at hserver
        subst hserver
        rw [hres, howner] at hvalid
        exact ⟨hres ▸ hne, hvalid⟩
      · obtain ⟨b', hb', hhost, hr, hwhy'⟩ := h.failed x hx
        exact ⟨b', List.mem_append_left _ hb', hhost,
          fun r hr' hconf' => hr r hr' ((hconf _ _).1 hconf'), hwhy'⟩
    · rcases List.mem_append.1 hx with hx | hx
      · obtain ⟨hmem, hr⟩ := h.refused x hfail href hx
        exact ⟨List.mem_cons_of_mem _ hmem, fun r hr' hconf' => hr r hr' ((hconf _ _).1 hconf')⟩
      · obtain ⟨hkey, hlist⟩ := Prod.mk.inj (List.mem_singleton.1 hx)
        obtain ⟨rfl, -⟩ := Prod.mk.inj hkey
        rw [hlist]
        exact ⟨List.mem_cons_self, fun r hr hconf' => hfresh r hr ((hconf _ _).1 hconf')⟩
    · simp [Quit.fail]
  · have hconf : ∀ h r, v.Confirmed h r ↔ q.world.Confirmed h r ∨ (h = host ∧ r ∈ resources) :=
      fun h r => by
        rw [hcall.confirmed]
        simp
    rw [hq]
    refine ⟨h.books.call hcall (settles_release resources q.desktop) htracks
      (fun _ hfail r hr => ?_),
      fun x r hr => ?_, fun b' hb' hx r hr => ?_, fun x hx => ?_, fun x hfail href hx => ?_,
      h.errors⟩
    · unfold ClosedOn
      rw [mem_claimedOn.1 (hres ▸ hr)]
      intro hserver hown
      obtain ⟨-, hgone⟩ := hwhy (hfailing.trans hfail) (hserver.trans hserverId.symm)
      rcases ((hcall.fewer host).trans (h.books.fewer host)).gone r _ hown with hr' | hr'
      · exact absurd (howner ▸ hr') (hgone r hr)
      · exact hr'
    · rcases (hconf x r).1 hr with hold | ⟨rfl, hmem⟩
      · obtain ⟨b', hb', hr'⟩ := h.confirmed x r hold
        exact ⟨b', List.mem_append_left _ hb', hr'⟩
      · exact ⟨_, List.mem_append_right _ List.mem_cons_self, rfl, hmem⟩
    · rcases List.mem_append.1 hb' with hb' | hb'
      · exact (hconf _ _).2 (.inl (h.closed b' hb' hx r hr))
      · obtain rfl := List.mem_singleton.1 hb'
        exact (hconf _ _).2 (.inr ⟨rfl, hr⟩)
    · obtain ⟨b', hb', hhost, hr, hwhy'⟩ := h.failed x hx
      refine ⟨b', List.mem_append_left _ hb', hhost, fun r hr' hconf' => ?_, hwhy'⟩
      rcases (hconf x r).1 hconf' with hold | ⟨rfl, hnew'⟩
      · exact hr r hr' hold
      · exact hother b' hb' hhost r hr' hnew'
    · rcases List.mem_append.1 hx with hbatch | hx
      · obtain ⟨hmem, hr⟩ := h.refused x hfail href hbatch
        refine ⟨hmem, fun r hr' hconf' => ?_⟩
        rcases (hconf x r).1 hconf' with hold | ⟨rfl, hnew'⟩
        · exact hr r hr' hold
        · exact hother _ hbatch rfl r hr' hnew'
      · obtain ⟨hkey, hlist⟩ := Prod.mk.inj (List.mem_singleton.1 hx)
        obtain ⟨rfl, hserver⟩ := Prod.mk.inj hkey
        obtain ⟨hvalid, -⟩ := hwhy (hfailing.trans hfail) (hserver.symm.trans hserverId.symm)
        rw [← hlist, howner] at hvalid
        exact absurd hvalid href.2

theorem foldl_batched : ∀ {rest done : List ((String ×ₗ String) × List Resource)} {q : Quit},
    Batched s w done q → (∀ b ∈ done ++ rest, b ∈ s.batches) →
      ((done ++ rest).map (·.1)).Nodup → Batched s w (done ++ rest) (rest.foldl Quit.stopBatch q)
  | [], done, q, h, _, _ => by simpa using h
  | b :: rest, done, q, h, hsub, hnodup => by
    have hsplit : done ++ b :: rest = done ++ [b] ++ rest := by simp
    have hnew : b.1 ∉ done.map (·.1) := by
      rw [List.map_append, List.map_cons, List.nodup_append] at hnodup
      exact fun hmem => hnodup.2.2 _ hmem _ List.mem_cons_self rfl
    rw [List.foldl_cons, hsplit]
    rw [hsplit] at hsub hnodup
    exact foldl_batched (h.step (fun b' hb' => hsub b' (by simp [hb'])) (hsub b (by simp)) hnew)
      hsub hnodup

/-- What all the batches together did. -/
theorem settling_batches (hlog : w.log = []) :
    Settling s w (s.batches.foldl Quit.stopBatch { desktop := s, world := w }) := by
  have h : Batched s w ([] ++ s.batches) _ :=
    foldl_batched (.start hlog) (fun b hb => by simpa using hb) (by simpa using batches_nodup)
  rw [List.nil_append] at h
  refine ⟨h.books, fun host hhost r => ?_, fun host hhost => ?_, fun host hhost => ?_,
    fun host hfail href => ?_, h.errors⟩
  · by_contra hsome
    obtain ⟨server, hserver⟩ := Option.ne_none_iff_exists'.1 hsome
    obtain ⟨hlook, hconf⟩ := (h.books.owned host r server).1 hserver
    have hmem := mem_claimedOn.2 hlook
    have hbatch := mem_batches.2 ⟨rfl, List.ne_nil_of_mem hmem⟩
    exact hconf (h.closed _ hbatch hhost r hmem)
  · obtain ⟨⟨⟨host', server⟩, resources⟩, hb, rfl, hr, -⟩ := h.failed host hhost
    obtain ⟨hres, hne⟩ := mem_batches.1 hb
    obtain ⟨r, hmem⟩ := List.exists_mem_of_ne_nil _ hne
    exact ⟨r, @tracks_of_claimed s host' server r (hres ▸ hmem), hr r hmem⟩
  · obtain ⟨_, _, _, _, hwhy⟩ := h.failed host hhost
    exact hwhy
  · exact h.refused host hfail href (mem_batches.2 ⟨rfl, href.1⟩)

/-- One turn or terminal. Its table loses it when its closing is confirmed. -/
theorem Settling.one {q : Quit} {host : String} {r : Resource}
    {settle : Connections → Connections} (h : Settling s w q) (htracks : s.Tracks host r)
    (hopen : ¬q.world.Confirmed host r)
    (hsettle : ∀ d : Connections, d.ownedInstances.lookup (host, r) = none →
      Settles d (settle d) host [r] True) :
    Settling s w (q.stopOne host r.closing settle) ∧
      (∀ x ∈ q.failedHosts, x ∈ (q.stopOne host r.closing settle).failedHosts) ∧
      (∀ x r', (q.stopOne host r.closing settle).world.Confirmed x r' ↔
        q.world.Confirmed x r' ∨
          (host ∉ (q.stopOne host r.closing settle).failedHosts ∧ x = host ∧ r' = r)) := by
  unfold Quit.stopOne
  split_ifs with hmem
  · exact ⟨h, fun _ hx => hx, fun _ _ => by simp [hmem]⟩
  have hown := h.unclaimed host hmem r
  have hcall := @closeResource_closing q.desktop q.world host r
  obtain ⟨clients, hdesktop⟩ := @closeResource_desktop q.desktop q.world host r
  have hreach := fun hfail => @closeResource_reachable q.desktop q.world host r hfail hown
  rcases hx : q.desktop.closeResource q.world host r.closing with ⟨e | ⟨⟩, d, v⟩
  · rw [hx] at hcall hdesktop hreach
    replace hcall : World.Closing q.world v host [r] False := hcall.congr (by simp)
    obtain rfl : d = { q.desktop with clients } := hdesktop
    have hconf : ∀ x r', v.Confirmed x r' ↔ q.world.Confirmed x r' := fun x r' => by
      rw [hcall.confirmed]
      simp
    refine ⟨⟨h.books.call hcall (.kept not_false) (by simpa using htracks) (fun hok => hok.elim),
      fun x hx' r' => h.unclaimed x (fun hm => hx' (List.mem_cons_of_mem _ hm)) r', fun x hx' => ?_,
      fun x hx' hfail => ?_, fun x hfail href => ?_, by simp [Quit.fail]⟩,
      fun x hx' => List.mem_cons_of_mem _ hx', fun x r' => ?_⟩
    · rcases List.mem_cons.1 hx' with rfl | hx'
      · exact ⟨r, htracks, fun hr => hopen ((hconf _ _).1 hr)⟩
      · obtain ⟨r', htr, hr'⟩ := h.failed x hx'
        exact ⟨r', htr, fun hr => hr' ((hconf _ _).1 hr)⟩
    · rcases List.mem_cons.1 hx' with rfl | hx'
      · have := (hreach ((congrFun h.books.failing x).trans hfail)).1
        cases this
      · exact h.reached x hx' hfail
    · obtain ⟨hm, hr⟩ := h.refused x hfail href
      exact ⟨List.mem_cons_of_mem _ hm, fun r' hr' hc => hr r' hr' ((hconf _ _).1 hc)⟩
    · refine (hconf x r').trans ?_
      simp [Quit.fail]
  · rw [hx] at hcall hdesktop hreach
    replace hcall : World.Closing q.world v host [r] True := hcall.congr (by simp)
    obtain rfl : d = { q.desktop with clients } := hdesktop
    have hconf : ∀ x r', v.Confirmed x r' ↔ q.world.Confirmed x r' ∨ (x = host ∧ r' = r) :=
      fun x r' => by
        rw [hcall.confirmed]
        simp
    have hset := hsettle { q.desktop with clients } hown
    have hset' : Settles q.desktop (settle { q.desktop with clients }) host [r] True :=
      ⟨hset.owner, hset.owned, hset.turns, hset.terminals⟩
    refine ⟨⟨h.books.call hcall hset' (by simpa using htracks) (fun _ hfail r' hr' => ?_),
      fun x hx' r' => ?_, fun x hx' => ?_, fun x hx' => h.reached x hx', fun x hfail href => ?_,
      h.errors⟩, fun x hx' => hx', fun x r' => ?_⟩
    · obtain rfl := List.mem_singleton.1 hr'
      have hholds := (hreach ((congrFun h.books.failing host).trans hfail)).2
      unfold ClosedOn
      rcases hlook : s.ownedInstances.lookup (host, r') with _ | server
      · exact hholds
      · exact fun _ _ => hholds
    · refine Option.eq_none_iff_forall_ne_some.2 fun server hserver => ?_
      have := ((hset'.owned x r' server).1 hserver).1
      rw [h.unclaimed x hx' r'] at this
      cases this
    · obtain ⟨r', htr, hr'⟩ := h.failed x hx'
      refine ⟨r', htr, fun hr => ?_⟩
      rcases (hconf _ _).1 hr with hr | ⟨rfl, -⟩
      · exact hr' hr
      · exact hmem hx'
    · obtain ⟨hm, hr⟩ := h.refused x hfail href
      refine ⟨hm, fun r' hr' hc => ?_⟩
      rcases (hconf _ _).1 hc with hc | ⟨rfl, -⟩
      · exact hr r' hr' hc
      · exact hmem hm
    · refine (hconf x r').trans ?_
      simp [hmem]

/-- A loop over the keys of one table. -/
theorem Settling.loop {resource : String → Resource} {f : Quit → String × String → Quit}
    {settle : String × String → Connections → Connections}
    (hinj : ∀ id id', resource id = resource id' → id = id')
    (hf : ∀ q key, f q key = q.stopOne key.1 (resource key.2).closing (settle key))
    (hsettle : ∀ (key : String × String) (d : Connections),
      d.ownedInstances.lookup (key.1, resource key.2) = none →
        Settles d (settle key d) key.1 [resource key.2] True) :
    ∀ (keys : List (String × String)) {q : Quit}, Settling s w q → keys.Nodup →
      (∀ key ∈ keys, s.Tracks key.1 (resource key.2) ∧
        ¬q.world.Confirmed key.1 (resource key.2)) →
      Settling s w (keys.foldl f q) ∧
        (∀ x ∈ q.failedHosts, x ∈ (keys.foldl f q).failedHosts) ∧
        (∀ x r, (keys.foldl f q).world.Confirmed x r → q.world.Confirmed x r ∨
          ∃ key ∈ keys, x = key.1 ∧ r = resource key.2) ∧
        (∀ x r, q.world.Confirmed x r → (keys.foldl f q).world.Confirmed x r) ∧
        ∀ key ∈ keys, key.1 ∉ (keys.foldl f q).failedHosts →
          (keys.foldl f q).world.Confirmed key.1 (resource key.2)
  | [], q, h, _, _ => ⟨h, fun _ hx => hx, fun _ _ => .inl, fun _ _ hx => hx, by simp⟩
  | key :: keys, q, h, hnodup, hkeys => by
    obtain ⟨hkey, hnodup⟩ := List.nodup_cons.1 hnodup
    obtain ⟨htracks, hopen⟩ := hkeys key List.mem_cons_self
    obtain ⟨hone, hfailed, hconf⟩ := h.one htracks hopen (hsettle key)
    rw [← hf] at hone hfailed hconf
    have hrest : ∀ other ∈ keys, s.Tracks other.1 (resource other.2) ∧
        ¬(f q key).world.Confirmed other.1 (resource other.2) := by
      intro other hother
      obtain ⟨htr, hop⟩ := hkeys other (List.mem_cons_of_mem _ hother)
      refine ⟨htr, fun hc => ?_⟩
      rcases (hconf _ _).1 hc with hc | ⟨-, hhost, hr⟩
      · exact hop hc
      · exact hkey (Prod.ext hhost (hinj _ _ hr) ▸ hother)
    obtain ⟨hset, hmono, hnew, hkeep, hclosed⟩ := Settling.loop hinj hf hsettle keys hone hnodup hrest
    refine ⟨hset, fun x hx => hmono x (hfailed x hx), fun x r hr => ?_,
      fun x r hr => hkeep x r ((hconf x r).2 (.inl hr)), fun other hother hnot => ?_⟩
    · rcases hnew x r hr with hr | ⟨other, hother, hx⟩
      · rcases (hconf x r).1 hr with hr | ⟨-, hx⟩
        · exact .inl hr
        · exact .inr ⟨key, List.mem_cons_self, hx⟩
      · exact .inr ⟨other, List.mem_cons_of_mem _ hother, hx⟩
    · rcases List.mem_cons.1 hother with rfl | hother
      · exact hkeep _ _ ((hconf _ _).2 (.inr ⟨fun hm => hnot (hmono _ hm), rfl, rfl⟩))
      · exact hclosed other hother hnot

theorem settles_turn {d : Connections} {key : String × String}
    (h : d.ownedInstances.lookup (key.1, .agentSession key.2) = none) :
    Settles d { d with turns := d.turns.erase key } key.1 [.agentSession key.2] True := by
  refine ⟨rfl, fun x r server => ⟨fun hx => ⟨hx, ?_⟩, And.left⟩, fun x id => ?_, fun x id => ?_⟩
  · rintro ⟨-, rfl, hr⟩
    rw [List.mem_singleton.1 hr, h] at hx
    cases hx
  · simp [AList.mem_erase, Prod.ext_iff, and_comm]
  · simp

theorem settles_terminal {d : Connections} {key : String × String}
    (h : d.ownedInstances.lookup (key.1, .terminal key.2) = none) :
    Settles d { d with terminals := d.terminals.erase key } key.1 [.terminal key.2] True := by
  refine ⟨rfl, fun x r server => ⟨fun hx => ⟨hx, ?_⟩, And.left⟩, fun x id => ?_, fun x id => ?_⟩
  · rintro ⟨-, rfl, hr⟩
    rw [List.mem_singleton.1 hr, h] at hx
    cases hx
  · simp
  · simp [AList.mem_erase, Prod.ext_iff, and_comm]

theorem localFirst_nodup {β : Type} (table : HashMap (String × String) β) :
    (localFirst table).Nodup :=
  (List.perm_insertionSort _ _).nodup_iff.2 table.keys_nodup

/-- The loops together: of a host that did not fail nothing is tracked any more. -/
theorem run_settling (hlog : w.log = []) :
    Settling s w (Quit.run s w) ∧
      ∀ host ∉ (Quit.run s w).failedHosts, ∀ r, ¬(Quit.run s w).desktop.Tracks host r := by
  have h := settling_batches (s := s) hlog
  unfold Quit.run
  generalize s.batches.foldl Quit.stopBatch { desktop := s, world := w } = q at h
  obtain ⟨h₁, -, hnew₁, hkeep₁, hturn⟩ :=
    @Settling.loop s w .agentSession Quit.stopTurn
      (fun key (d : Connections) => { d with turns := d.turns.erase key })
      (fun _ _ => Resource.agentSession.inj) (fun _ _ => rfl) (fun _ _ => settles_turn)
      (localFirst q.desktop.turns) q h (localFirst_nodup _) fun key hkey => by
        obtain ⟨hmem, hopen⟩ := (h.books.turns key.1 key.2).1 (mem_localFirst.1 hkey)
        exact ⟨.inr hmem, hopen⟩
  dsimp only
  generalize (localFirst q.desktop.turns).foldl Quit.stopTurn q = q₁ at h₁ hnew₁ hkeep₁ hturn
  obtain ⟨h₂, hmono, -, hkeep₂, hterminal⟩ :=
    @Settling.loop s w .terminal Quit.stopTerminal
      (fun key (d : Connections) => { d with terminals := d.terminals.erase key })
      (fun _ _ => Resource.terminal.inj) (fun _ _ => rfl) (fun _ _ => settles_terminal)
      (localFirst q₁.desktop.terminals) q₁ h₁ (localFirst_nodup _) fun key hkey => by
        obtain ⟨hmem, hopen⟩ := (h₁.books.terminals key.1 key.2).1 (mem_localFirst.1 hkey)
        exact ⟨.inr hmem, hopen⟩
  refine ⟨h₂, fun host hhost r htracks => ?_⟩
  obtain ⟨hold, hopen⟩ := h₂.books.tracks_iff.1 htracks
  rcases htracks with hown | htracks
  · have := AList.lookup_isSome.2 hown
    rw [h₂.unclaimed host hhost r] at this
    cases this
  cases r with
  | agentSession id =>
    have hmem : (host, id) ∈ q.desktop.turns := (h.books.turns host id).2
      ⟨((h₂.books.turns host id).1 htracks).1, fun hc => hopen (hkeep₂ _ _ (hkeep₁ _ _ hc))⟩
    exact hopen (hkeep₂ _ _
      (hturn (host, id) (mem_localFirst.2 hmem) fun hf => hhost (hmono host hf)))
  | terminal id =>
    have hmem : (host, id) ∈ q₁.desktop.terminals := (h₁.books.terminals host id).2
      ⟨((h₂.books.terminals host id).1 htracks).1, fun hc => hopen (hkeep₂ _ _ hc)⟩
    exact hopen (hterminal (host, id) (mem_localFirst.2 hmem) hhost)

end

/-- Quitting closes everything the desktop owns: on every host that can be reached what it tracks
is closed and confirmed, it tracks what was not confirmed and nothing else, it succeeds when nothing
of that is left, and it asks its hosts for nothing but to close what it tracks there. -/
def ClosesOwned (s : Connections) (w : World) : Prop :=
  let (result, d, v) := stopOwned s w.begin
  (∀ host r, w.failing host = false → s.Tracks host r →
      v.Confirmed host r ∧ ClosedOn s w v host r) ∧
    (∀ host r, d.Tracks host r ↔ s.Tracks host r ∧ ¬v.Confirmed host r) ∧
    (result = .ok () ↔ ∀ host r, ¬d.Tracks host r) ∧
    ∀ host request, v.Sent host request →
      request.closes = true ∧ ∀ r ∈ request.resources, s.Tracks host r

theorem closesOwned_iff (s : Connections) (w : World) :
    ClosesOwned s w ↔ ∀ host, w.failing host = false → ¬Refused s w host := by
  obtain ⟨h, hleft⟩ := @run_settling s w.begin rfl
  have hclosed : ∀ host r, ClosedOn s w.begin (Quit.run s w.begin).world host r →
      ClosedOn s w (Quit.run s w.begin).world host r := fun host r hc => hc
  unfold ClosesOwned stopOwned
  dsimp only
  generalize Quit.run s w.begin = q at h hleft hclosed
  constructor
  · rintro ⟨hreached, -⟩ host hfail href
    obtain ⟨r, hr⟩ := List.exists_mem_of_ne_nil _ href.1
    exact (h.refused host hfail href).2 r hr (hreached host r hfail (tracks_of_claimed hr)).1
  · intro hcond
    have htracks := fun host r => @Books.tracks_iff s w.begin q.desktop q.world host h.books r
    refine ⟨fun host r hfail hr => ?_, htracks, ?_, h.books.sent⟩
    · have hnot : host ∉ q.failedHosts := fun hm => hcond host hfail (h.reached host hm hfail)
      have hconf : q.world.Confirmed host r := by
        by_contra hc
        exact hleft host hnot r ((htracks host r).2 ⟨hr, hc⟩)
      exact ⟨hconf, hclosed host r (h.books.closed host r hconf hfail)⟩
    · have hresult : q.result = .ok () ↔ q.errors = [] := by
        unfold Quit.result
        split_ifs with he <;> simp [he]
      rw [hresult, h.errors]
      refine ⟨fun hnil host => hleft host (by simp [hnil]), fun hnone => ?_⟩
      refine List.eq_nil_iff_forall_not_mem.2 fun host hm => ?_
      obtain ⟨r, hr⟩ := h.failed host hm
      exact hnone host r ((htracks host r).2 hr)

/-- Quitting closes everything exactly when, on each host that can be reached, what was claimed on
its running instance is a batch the host takes. -/
theorem stopOwned_closes (s : Connections) (w : World) :
    ClosesOwned s w ↔ ∀ host, w.failing host = false →
      let claimed := s.claimedOn host (w.services host).serverId
      claimed = [] ∨ validateResources s.owner claimed = .ok () := by
  rw [closesOwned_iff]
  refine forall₂_congr fun host _ => ?_
  rw [Refused, not_and_or, not_not, not_not]

/-- Sessions the desktop has open on its local host. -/
def openSessions (n : ℕ) : HashMap (String × Resource) String where
  entries := (List.range n).map fun i =>
    ⟨("local", .agentSession (String.ofList (List.replicate (i + 1) 's'))), "server"⟩
  nodupKeys := by
    have hinj : Function.Injective fun i : ℕ =>
        ("local", Resource.agentSession (String.ofList (List.replicate (i + 1) 's'))) := by
      intro i j h
      have hlist := String.ofList_injective (Resource.agentSession.inj (Prod.mk.inj h).2)
      simpa using congrArg List.length hlist
    rw [List.NodupKeys, List.keys, List.map_map]
    exact List.nodup_range.map hinj

def manySessions (n : ℕ) : Connections where
  owner := "8c1f3a52-6d0e-4b7a-9f21-3e5d7c9b1a40"
  hostTargets := AList.singleton "local" { id := "local", name := "本机" }
  ownedInstances := openSessions n

def allReachable : World where
  services _ := { serverId := "server" }
  failing _ := false
  faults _ := { message := "" }

theorem claimedOn_manySessions (n : ℕ) :
    (manySessions n).claimedOn "local" "server" =
      (List.range n).map fun i => .agentSession (String.ofList (List.replicate (i + 1) 's')) := by
  rw [claimedOn, OrdMap.under, List.filter_eq_self.2]
  · simp [manySessions, openSessions]
  · intro p hp
    simp only [manySessions, openSessions, List.map_map, List.mem_map] at hp
    obtain ⟨i, -, rfl⟩ := hp
    rfl

/-- One session more than fits in a batch, and none of them is closed. -/
theorem manySessions_stay_open : ¬ClosesOwned (manySessions 129) allReachable := by
  rw [closesOwned_iff]
  intro h
  have hlength : ((manySessions 129).claimedOn "local" "server").length = 129 := by
    simp [claimedOn_manySessions]
  refine h "local" rfl ⟨fun hnil => ?_, fun hvalid => ?_⟩
  · have hnil : (manySessions 129).claimedOn "local" "server" = [] := hnil
    rw [hnil] at hlength
    cases hlength
  · have hvalid := Fallible.bailIf_eq_ok.1 hvalid
    have hlength : ((manySessions 129).claimedOn "local"
        (allReachable.services "local").serverId).length = 129 := hlength
    omega

end LatteWork
