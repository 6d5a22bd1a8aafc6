import LatteWork.Server.Lifecycle

/-!
# Who closes what

An entry of the ownership map names the owner that last claimed or adopted the resource, since
whatever ends a claim takes the entry out (`Owned`). So a close asks only for what its owner has.
The actor may take the close after the request gave up waiting for it; then somebody else may have
claimed the session in between (`late_close_crosses`), and otherwise nobody (`Asked`).
-/

namespace LatteWork

open Fallible

/-- Who claimed or adopted a resource last. -/
abbrev Claims := Resource → Option String

def Claims.take (c : Claims) (owner : String) (resources : List Resource) : Claims :=
  fun r => if r ∈ resources then some owner else c r

theorem Claims.take_take (c : Claims) (owner : String) (l m : List Resource) :
    (c.take owner l).take owner m = c.take owner (l ++ m) := by
  funext r
  by_cases hl : r ∈ l <;> by_cases hm : r ∈ m <;> simp [Claims.take, hl, hm]

namespace Service

/-- What an operation claims or adopts, and for whom. -/
def takes (s : Service) (o : LifecycleOp) : Option (String × List Resource) :=
  if s.admits o then
    match o with
    | .claim owner resources =>
      (s.claim owner resources).toOption.map fun _ => (owner, resources)
    | .adopt serverId previous owner resources =>
      (s.adopt serverId previous owner resources).toOption.map fun t => (owner, t.2)
    | _ => none
  else none

/-- What a `CloseOwnedResources` asks a session's actor to close, and for whom. -/
def asks (s : Service) : LifecycleOp → Option (String × Resource)
  | .closeNext _ =>
    match s.closing with
    | some { owner, remaining := r :: _, waiting := false } =>
      if s.owners.lookup r = some owner then some (owner, r) else none
    | _ => none
  | _ => none

/-- What comes to its end for a `CloseOwnedResources`, and for whom: a terminal when it is asked
for, a session when its actor takes the close. -/
def closes (s : Service) : LifecycleOp → Option (String × Resource)
  | .closeNext known => (s.asks (.closeNext known)).filter fun e => e.2 = .terminal e.2.id
  | .actorCancels id _ =>
    (s.runs.lookup id).bind fun run => run.cancels.head?.join.map fun owner =>
      (owner, .agentSession id)
  | _ => none

/-- An operation, and who claimed what. -/
def track (x : Service × Claims) (o : LifecycleOp) : Service × Claims :=
  (x.1.step o, match x.1.takes o with
    | some (owner, resources) => x.2.take owner resources
    | none => x.2)

/-- The operation takes no session while a close for somebody else is still before its actor. -/
def Undisputed (x : Service × Claims) (o : LifecycleOp) : Prop :=
  ∀ e ∈ x.1.takes o, ∀ entry ∈ x.1.runs, .agentSession entry.1 ∈ e.2 →
    ∀ c ∈ entry.2.cancels, c = none ∨ c = some e.1

/-- The ownership map is a map of at most 4096 entries, each naming who took the resource last. -/
structure Owned (s : Service) (c : Claims) : Prop where
  keys : (s.owners.map (·.1)).Nodup
  few : s.owners.length ≤ 4096
  last : ∀ r owner, (r, owner) ∈ s.owners → c r = some owner

/-- A close before a session's actor is for the one that took the session last. -/
structure Asked (s : Service) (c : Claims) : Prop where
  keys : (s.runs.map (·.1)).Nodup
  last : ∀ entry ∈ s.runs, ∀ owner, some owner ∈ entry.2.cancels →
    c (.agentSession entry.1) = some owner

section Owners

variable {s t : Service} {c : Claims} {r : Resource} {owner previous : String}

theorem Owned.of_eq (h : Owned s c) (he : t.owners = s.owners) : Owned t c := by
  refine ⟨?_, ?_, ?_⟩ <;> rw [he]
  · exact h.keys
  · exact h.few
  · exact h.last

theorem Owned.drop (h : Owned s c) (he : t.owners = Assoc.drop r s.owners) : Owned t c := by
  refine ⟨?_, ?_, fun q owner hq => ?_⟩
  · rw [he]
    exact Assoc.nodup_drop h.keys
  · rw [he]
    exact Nat.le_trans Assoc.length_drop_le h.few
  · rw [he, Assoc.mem_drop] at hq
    exact h.last q owner hq.1

/-- Putting entries in: a map stays one, and grows by the new keys at most. -/
theorem putEach_owned (owner : String) : ∀ (resources : List Resource)
    {owners : List (Resource × String)}, (owners.map (·.1)).Nodup →
    let after := resources.foldl (fun owners r => Assoc.put r owner owners) owners
    (after.map (·.1)).Nodup ∧
      after.length ≤ owners.length + (resources.filter fun r => (owners.lookup r).isNone).length ∧
      ∀ q v, (q, v) ∈ after → (q ∈ resources ∧ v = owner) ∨ (q ∉ resources ∧ (q, v) ∈ owners)
  | [], owners, h => by simp [h]
  | r :: rest, owners, h => by
    have hnodup : ((Assoc.put r owner owners).map (·.1)).Nodup := Assoc.nodup_put h
    obtain ⟨hkeys, hlen, hmem⟩ := putEach_owned owner rest hnodup
    have hput : (Assoc.put r owner owners).length ≤
        owners.length + if (owners.lookup r).isNone then 1 else 0 := Assoc.length_put_le
    have hnew : (rest.filter fun q => ((Assoc.put r owner owners).lookup q).isNone).length ≤
        (rest.filter fun q => (owners.lookup q).isNone).length := by
      refine (List.monotone_filter_right rest fun q hq => ?_).length_le
      rw [Assoc.lookup_put] at hq
      split at hq
      · cases hq
      · exact hq
    refine ⟨hkeys, ?_, fun q v hq => ?_⟩
    · simp only [List.foldl_cons, List.filter_cons]
      split <;> simp_all <;> omega
    · obtain ⟨hrest, hv⟩ | ⟨hrest, hold⟩ := hmem q v hq
      · exact .inl ⟨List.mem_cons_of_mem _ hrest, hv⟩
      · obtain ⟨hold, hne⟩ | heq := Assoc.mem_put.1 hold
        · exact .inr ⟨by simpa using ⟨hne, hrest⟩, hold⟩
        · obtain ⟨rfl, rfl⟩ := Prod.mk.inj heq
          exact .inl ⟨List.mem_cons_self, rfl⟩

theorem claim_owned {resources : List Resource} (h : Owned s c)
    (hc : s.claim owner resources = .ok t) : Owned t (c.take owner resources) := by
  simp only [claim, bind_eq_ok, bailIf_eq_ok, Except.ok.injEq] at hc
  obtain ⟨_, _, _, _, _, hfew, rfl⟩ := hc
  obtain ⟨hkeys, hlen, hmem⟩ := putEach_owned owner resources h.keys
  refine ⟨hkeys, by simp only; omega, fun q v hq => ?_⟩
  obtain ⟨htaken, rfl⟩ | ⟨hother, hold⟩ := hmem q v hq
  · exact if_pos htaken
  · rw [Claims.take, if_neg hother]
    exact h.last q v hold

/-- The loop of an adoption: what it takes was alive and of one of the two, and nothing else
changes. -/
theorem adoptEach_owned (previous owner : String) : ∀ (resources : List Resource) {s : Service}
    {c : Claims}, Owned s c →
    let t := adoptEach previous owner s resources
    Owned t.1 (c.take owner t.2) ∧
      (∀ r ∈ t.2, s.live r = true ∧
        (s.owners.lookup r = some previous ∨ s.owners.lookup r = some owner)) ∧
      (∀ r, r ∉ t.2 → t.1.owners.lookup r = s.owners.lookup r) ∧
      t.1 = { s with owners := t.1.owners }
  | [], s, c, h => by
    refine ⟨⟨h.keys, h.few, fun r o hr => ?_⟩, by simp [adoptEach], fun _ _ => rfl, rfl⟩
    simpa [adoptEach, Claims.take] using h.last r o hr
  | r :: rest, s, c, h => by
    rw [adoptEach]
    split
    · rename_i htaken
      obtain ⟨w, hw⟩ : ∃ w, s.owners.lookup r = some w := by
        rcases htaken.2 with h | h <;> exact ⟨_, h⟩
      have hput : (Assoc.put r owner s.owners).length ≤
          s.owners.length + if (s.owners.lookup r).isNone then 1 else 0 := Assoc.length_put_le
      have hone : Owned { s with owners := Assoc.put r owner s.owners } (c.take owner [r]) := by
        refine ⟨Assoc.nodup_put h.keys, ?_, fun q v hq => ?_⟩
        · have := h.few
          simp only [hw, Option.isNone_some, Bool.false_eq_true, if_false] at hput ⊢
          omega
        · obtain ⟨hold, hne⟩ | heq := Assoc.mem_put.1 hq
          · rw [Claims.take, if_neg (by simpa using hne)]
            exact h.last q v hold
          · obtain ⟨rfl, rfl⟩ := Prod.mk.inj heq
            exact if_pos List.mem_cons_self
      obtain ⟨howned, htakes, hrest, hsame⟩ := adoptEach_owned previous owner rest hone
      refine ⟨?_, fun q hq => ?_, fun q hq => ?_, ?_⟩
      · rwa [Claims.take_take] at howned
      · rcases List.mem_cons.1 hq with rfl | hq
        · exact htaken
        · obtain ⟨hlive, howner⟩ := htakes q hq
          refine ⟨hlive, ?_⟩
          by_cases hqr : q = r
          · exact hqr ▸ htaken.2
          · simpa [Assoc.lookup_put, hqr] using howner
      · rw [List.mem_cons, not_or] at hq
        rw [hrest q hq.2]
        simp [Assoc.lookup_put, hq.1]
      · rw [hsame]
    · exact adoptEach_owned previous owner rest h

theorem adopt_cases {serverId : String} {resources adopted : List Resource}
    (h : s.adopt serverId previous owner resources = .ok (t, adopted)) :
    (t = s ∧ adopted = []) ∨ (t, adopted) = adoptEach previous owner s resources := by
  simp only [adopt, bind_eq_ok] at h
  obtain ⟨_, _, _, _, h⟩ := h
  split at h
  · simp only [Except.ok.injEq, Prod.mk.injEq] at h
    exact .inl ⟨h.1.symm, h.2.symm⟩
  · exact .inr (Except.ok.inj h).symm

theorem updateRun_owners (s : Service) (id : String) (f : RunHandle → RunHandle) :
    (s.updateRun id f).owners = s.owners := by
  unfold updateRun
  split <;> rfl

theorem closeOwned_cases {serverId : String} {resources : List Resource}
    (h : s.closeOwned serverId owner resources = .ok t) :
    (serverId ≠ s.serverId ∧ t = s) ∨
      t = { s with closing := some { owner, remaining := resources } } := by
  simp only [closeOwned, bind_eq_ok] at h
  obtain ⟨_, _, h⟩ := h
  split at h
  · exact .inl ⟨‹_›, (Except.ok.inj h).symm⟩
  · exact .inr (Except.ok.inj h).symm

/-- What a part of a close does to the map. -/
theorem closeAnswered_owners (s : Service) (ok : Bool) :
    (s.closeAnswered ok).owners = s.owners ∨
      ∃ r, (s.closeAnswered ok).owners = Assoc.drop r s.owners := by
  unfold closeAnswered
  split
  · split
    · exact .inr ⟨_, rfl⟩
    · exact .inl rfl
  · exact .inl rfl

theorem closeNext_owners (s : Service) (known : Bool) :
    (s.closeNext known).owners = s.owners ∨
      ∃ r, (s.closeNext known).owners = Assoc.drop r s.owners := by
  unfold closeNext
  split
  · dsimp only
    split
    · exact .inl rfl
    split
    · exact .inr ⟨_, rfl⟩
    split
    · exact .inr ⟨_, rfl⟩
    split
    · rename_i hask
      simp only [askClose, bind_eq_ok, Except.ok.injEq] at hask
      obtain ⟨_, _, _, _, rfl⟩ := hask
      exact .inl rfl
    · exact .inl rfl
  · exact .inl rfl
  · exact .inl rfl

theorem actorCancels_owners (s : Service) (id : String) (ok : Bool) :
    (s.actorCancels id ok).owners = s.owners ∨
      ∃ r, (s.actorCancels id ok).owners = Assoc.drop r s.owners := by
  unfold actorCancels
  split
  · dsimp only
    split
    · exact closeAnswered_owners _ _
    · exact .inl rfl
  · exact .inl rfl

/-- The map after any operation. -/
theorem Owned.track {x : Service × Claims} (h : Owned x.1 x.2) (o : LifecycleOp) :
    Owned (Service.track x o).1 (Service.track x o).2 := by
  obtain ⟨s, c⟩ := x
  have hkept : ∀ {t : Service}, (t.owners = s.owners ∨ ∃ r, t.owners = Assoc.drop r s.owners) →
      Owned t c := by
    rintro t (he | ⟨r, he⟩)
    · exact h.of_eq he
    · exact h.drop he
  simp only [Service.track, step, takes]
  split
  · rename_i hadmits
    cases o with
    | claim owner resources =>
      rcases hc : s.claim owner resources with e | t
      · simpa [Runs.attempt, apply, hc, Except.toOption] using h
      · simpa [Runs.attempt, apply, hc, Except.toOption] using claim_owned h hc
    | adopt serverId previous owner resources =>
      rcases ha : s.adopt serverId previous owner resources with e | ⟨t, adopted⟩
      · simpa [Runs.attempt, apply, ha, Except.toOption, Except.map] using h
      · have howned : Owned t (c.take owner adopted) := by
          obtain ⟨rfl, rfl⟩ | heq := adopt_cases ha
          · exact ⟨h.keys, h.few, fun r v hr => by simpa [Claims.take] using h.last r v hr⟩
          · have hloop := (adoptEach_owned previous owner resources h).1
            rwa [← heq] at hloop
        simpa [Runs.attempt, apply, ha, Except.toOption, Except.map] using howned
    | closeOwned serverId owner resources =>
      refine hkept (.inl ?_)
      rcases hc : s.closeOwned serverId owner resources with e | t
      · simp [Runs.attempt, apply, hc]
      · obtain ⟨-, rfl⟩ | rfl := closeOwned_cases hc <;> simp [Runs.attempt, apply, hc]
    | closeNext known => exact hkept (closeNext_owners s known)
    | closeTimeout => exact hkept (closeAnswered_owners s false)
    | actorCancels id ok => exact hkept (actorCancels_owners s id ok)
    | forget r => exact h.drop rfl
    | clientCloses id => exact h.of_eq (updateRun_owners s id _)
    | flagged id => exact h.of_eq (updateRun_owners s id _)
    | died id => exact h.of_eq (updateRun_owners s id _)
    | opened id =>
      refine h.of_eq ?_
      simp only [Runs.attempt, apply]
      split <;> rfl
    | terminalOpened id =>
      refine h.of_eq ?_
      simp only [Runs.attempt, apply]
      split <;> rfl
    | terminalExited id =>
      refine h.of_eq ?_
      simp only [Runs.attempt, apply]
      split <;> rfl
    | _ => exact h.of_eq rfl
  · exact h

end Owners

section Actors

variable {s t : Service} {c : Claims} {id : String}

theorem Asked.of_eq (h : Asked s c) (he : t.runs = s.runs) : Asked t c :=
  ⟨by rw [he]; exact h.keys, by rw [he]; exact h.last⟩

theorem Asked.drop (h : Asked s c) (he : t.runs = Assoc.drop id s.runs) : Asked t c := by
  refine ⟨?_, fun entry hentry => ?_⟩
  · rw [he]
    exact Assoc.nodup_drop h.keys
  · rw [he, Assoc.mem_drop] at hentry
    exact h.last entry hentry.1

theorem Asked.put (h : Asked s c) {run : RunHandle} (he : t.runs = Assoc.put id run s.runs)
    (hrun : ∀ owner, some owner ∈ run.cancels → c (.agentSession id) = some owner) : Asked t c := by
  refine ⟨?_, fun entry hentry => ?_⟩
  · rw [he]
    exact Assoc.nodup_put h.keys
  · rw [he, Assoc.mem_put] at hentry
    obtain ⟨hold, -⟩ | rfl := hentry
    · exact h.last entry hold
    · exact hrun

theorem Asked.updateRun (h : Asked s c) {f : RunHandle → RunHandle}
    (hf : ∀ run owner, some owner ∈ (f run).cancels → some owner ∈ run.cancels) :
    Asked (s.updateRun id f) c := by
  unfold Service.updateRun
  split
  · rename_i run hrun
    exact h.put rfl fun owner howner =>
      h.last (id, run) (Assoc.mem_of_lookup hrun) owner (hf run owner howner)
  · exact h

theorem closeAnswered_runs (s : Service) (ok : Bool) : (s.closeAnswered ok).runs = s.runs := by
  unfold closeAnswered
  split
  · split <;> rfl
  · rfl

/-- A close asks an actor for its owner's session. -/
theorem Asked.closeNext (h : Asked s c) (ho : Owned s c) (known : Bool) :
    Asked (s.closeNext known) c := by
  unfold Service.closeNext
  split
  · rename_i owner r rest _
    dsimp only
    split
    · exact h.of_eq rfl
    rename_i howned
    rw [not_not] at howned
    split
    · exact h.of_eq rfl
    split
    · exact h.of_eq rfl
    rename_i run hrun
    split
    · rename_i hask
      simp only [askClose, bind_eq_ok, Except.ok.injEq] at hask
      obtain ⟨_, _, _, _, rfl⟩ := hask
      refine h.put rfl fun other hother => ?_
      have hmine := ho.last _ owner (Assoc.mem_of_lookup howned)
      rcases List.mem_append.1 hother with hold | hnew
      · exact h.last _ (Assoc.mem_of_lookup hrun) other hold
      · obtain rfl : other = owner := by simpa using hnew
        exact hmine
    · exact h.of_eq rfl
  · exact h.of_eq rfl
  · exact h

theorem Asked.actorCancels (h : Asked s c) (ok : Bool) : Asked (s.actorCancels id ok) c := by
  unfold Service.actorCancels
  split
  · dsimp only
    split
    · exact h.drop (closeAnswered_runs _ _)
    · exact h.drop rfl
  · exact h

/-- Taking resources nobody else still has to close. -/
theorem Asked.take (h : Asked s c) {owner : String} {resources : List Resource}
    (hu : ∀ entry ∈ s.runs, .agentSession entry.1 ∈ resources →
      ∀ w ∈ entry.2.cancels, w = none ∨ w = some owner) : Asked s (c.take owner resources) := by
  refine ⟨h.keys, fun entry hentry other hother => ?_⟩
  by_cases htaken : Resource.agentSession entry.1 ∈ resources
  · rw [Claims.take, if_pos htaken]
    exact ((hu entry hentry htaken _ hother).resolve_left (by simp)).symm
  · rw [Claims.take, if_neg htaken]
    exact h.last entry hentry other hother

theorem Asked.track {x : Service × Claims} (h : Asked x.1 x.2) (ho : Owned x.1 x.2)
    (o : LifecycleOp) (hu : Undisputed x o) :
    Asked (Service.track x o).1 (Service.track x o).2 := by
  obtain ⟨s, c⟩ := x
  have htook : Asked s (match s.takes o with
      | some (owner, resources) => c.take owner resources
      | none => c) := by
    split
    · rename_i owner resources htakes
      exact h.take fun entry hentry hmem => hu (owner, resources) htakes entry hentry hmem
    · exact h
  simp only [Service.track, step]
  split
  · cases o with
    | claim owner resources =>
      refine htook.of_eq ?_
      rcases hc : s.claim owner resources with e | t
      · simp [Runs.attempt, apply, hc]
      · have hruns : t.runs = s.runs := by
          simp only [claim, bind_eq_ok, Except.ok.injEq] at hc
          obtain ⟨_, _, _, _, _, _, rfl⟩ := hc
          rfl
        simpa [Runs.attempt, apply, hc] using hruns
    | adopt serverId previous owner resources =>
      refine htook.of_eq ?_
      rcases ha : s.adopt serverId previous owner resources with e | ⟨t, adopted⟩
      · simp [Runs.attempt, apply, ha, Except.map]
      · have hruns : t.runs = s.runs := by
          obtain ⟨rfl, -⟩ | heq := adopt_cases ha
          · rfl
          · have hsame := (adoptEach_owned previous owner resources ho).2.2.2
            rw [← heq] at hsame
            have hruns := congrArg Service.runs hsame
            exact hruns
        simpa [Runs.attempt, apply, ha, Except.map] using hruns
    | closeOwned serverId owner resources =>
      refine htook.of_eq ?_
      rcases hc : s.closeOwned serverId owner resources with e | t
      · simp [Runs.attempt, apply, hc]
      · obtain ⟨-, rfl⟩ | rfl := closeOwned_cases hc <;> simp [Runs.attempt, apply, hc]
    | closeNext known => simpa [takes, Runs.attempt, apply] using h.closeNext ho known
    | closeTimeout => exact htook.of_eq (closeAnswered_runs s false)
    | actorCancels id ok => exact htook.actorCancels ok
    | clientCloses id => exact htook.updateRun fun run owner howner => by simpa using howner
    | flagged id sessionOpen safeToClose => exact htook.updateRun fun run owner howner => howner
    | died id => exact htook.updateRun fun run owner howner => howner
    | opened id =>
      simp only [Runs.attempt, apply]
      split
      · exact htook
      · exact htook.put rfl (by simp)
    | terminalOpened id =>
      refine htook.of_eq ?_
      simp only [Runs.attempt, apply]
      split <;> rfl
    | terminalExited id =>
      refine htook.of_eq ?_
      simp only [Runs.attempt, apply]
      split <;> rfl
    | _ => exact htook.of_eq rfl
  · exact htook

end Actors

/-- What is asked to close is the asker's. -/
theorem Owned.asks {s : Service} {c : Claims} (h : Owned s c) {o : LifecycleOp} {owner : String}
    {r : Resource} (ha : s.asks o = some (owner, r)) : c r = some owner := by
  unfold Service.asks at ha
  split at ha
  · split at ha
    · split at ha
      · rename_i howned
        simp only [Option.some.injEq, Prod.mk.injEq] at ha
        obtain ⟨rfl, rfl⟩ := ha
        exact h.last _ _ (Assoc.mem_of_lookup howned)
      · cases ha
    · cases ha
  · cases ha

theorem closes_own {s : Service} {c : Claims} (h : Owned s c) (ha : Asked s c) {o : LifecycleOp}
    {owner : String} {r : Resource} (hc : s.closes o = some (owner, r)) : c r = some owner := by
  unfold Service.closes at hc
  split at hc
  · exact h.asks (Option.mem_filter_iff.1 hc).1
  · obtain ⟨run, hrun, hc⟩ := Option.bind_eq_some_iff.1 hc
    obtain ⟨other, hother, heq⟩ := Option.map_eq_some_iff.1 hc
    simp only [Prod.mk.injEq] at heq
    obtain ⟨rfl, rfl⟩ := heq
    refine ha.last (_, run) (Assoc.mem_of_lookup hrun) other ?_
    exact List.mem_of_mem_head? (Option.join_eq_some_iff.1 hother)
  · cases hc

end Service

/-- Resources stay with their owners. After any operations, at most 4096 resources are owned, and
an entry names whoever took the resource last; an adoption takes what is alive and of the named
owner or the adopter, and leaves the rest alone; a close with another server's id changes nothing;
what a close asks for is the asker's. When no operation took a session while a close for somebody
else was still before its actor, what is closed for an owner was taken by that owner last. -/
theorem resources_owned (serverId : String) (ops : List LifecycleOp) :
    let start : Service × Claims := ({ serverId }, fun _ => none)
    let x := Runs.run Service.track start ops
    x.1.owners.length ≤ 4096 ∧
    (∀ r owner, x.1.owners.lookup r = some owner → x.2 r = some owner) ∧
    (∀ id previous owner resources t adopted,
      x.1.adopt id previous owner resources = .ok (t, adopted) → ∀ r,
        (r ∈ adopted → x.1.live r = true ∧
          (x.1.owners.lookup r = some previous ∨ x.1.owners.lookup r = some owner)) ∧
        (r ∉ adopted → t.owners.lookup r = x.1.owners.lookup r)) ∧
    (∀ id owner resources t, id ≠ x.1.serverId → x.1.closeOwned id owner resources = .ok t →
      t = x.1) ∧
    (∀ o owner r, x.1.asks o = some (owner, r) → x.2 r = some owner) ∧
    (Runs.Throughout Service.track Service.Undisputed start ops →
      ∀ o owner r, x.1.closes o = some (owner, r) → x.2 r = some owner) := by
  intro start x
  have hstart : Service.Owned start.1 start.2 := ⟨by simp [start], by simp [start], by simp [start]⟩
  have howned : Service.Owned x.1 x.2 :=
    Runs.run_keeps (P := fun x : Service × Claims => Service.Owned x.1 x.2) hstart
      (fun _ o h => h.track o) ops
  refine ⟨howned.few, fun r owner h => howned.last r owner (Assoc.mem_of_lookup h),
    fun id previous owner resources t adopted ha r => ?_, fun id owner resources t hne hc => ?_,
    fun o owner r ha => howned.asks ha, fun hu o owner r hc => ?_⟩
  · obtain ⟨rfl, rfl⟩ | heq := Service.adopt_cases ha
    · simp
    · obtain ⟨-, htakes, hrest, -⟩ := Service.adoptEach_owned previous owner resources howned
      rw [← heq] at htakes hrest
      exact ⟨htakes r, hrest r⟩
  · unfold Service.closeOwned at hc
    simp only [bind_eq_ok, if_pos hne, Except.ok.injEq] at hc
    obtain ⟨_, _, rfl⟩ := hc
    rfl
  · have hboth := Runs.throughout_keeps
      (P := fun x : Service × Claims => Service.Owned x.1 x.2 ∧ Service.Asked x.1 x.2)
      (fun _ o h hu => ⟨h.1.track o, h.2.track h.1 o hu⟩)
      ⟨hstart, ⟨by simp [start], by simp [start]⟩⟩ hu
    exact Service.closes_own howned hboth.2 hc

/-- Two windows: the first one's close gives up on its session, the second claims the session, and
then its actor takes the close. -/
def lateClose : List LifecycleOp :=
  [.request, .opened "s", .respond, .claim "a" [.agentSession "s"],
    .closeOwned "srv" "a" [.agentSession "s"], .closeNext true, .closeTimeout,
    .claim "b" [.agentSession "s"]]

/-- The session is closed for the first window, when the second has claimed it last. -/
theorem late_close_crosses :
    let x := Runs.run Service.track (({ serverId := "srv" }, fun _ => none) : Service × Claims) lateClose
    x.1.closes (.actorCancels "s" true) = some ("a", .agentSession "s") ∧
      x.2 (.agentSession "s") = some "b" ∧
      (x.1.step (.actorCancels "s" true)).runs = [] := by
  decide +kernel

end LatteWork
