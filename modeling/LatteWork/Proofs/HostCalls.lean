import LatteWork.Desktop.Quit

/-!
# What closing does to the hosts

A call that closes resources on a host sends only requests that close them, has them confirmed when
it succeeds, and leaves every host with no more than it had.
-/

namespace LatteWork

/-- The request that closes one resource. -/
def Resource.closing : Resource → HostRequest
  | .agentSession id => .closeAgentSession id
  | .terminal id => .closeTerminal id

/-- The request asks for nothing but to close its resources. -/
def HostRequest.closes : HostRequest → Bool
  | .adopt .. => false
  | _ => true

@[simp]
theorem Resource.closing_closes (r : Resource) : r.closing.closes = true := by cases r <;> rfl

@[simp]
theorem Resource.closing_resources (r : Resource) : r.closing.resources = [r] := by cases r <;> rfl

/-- One state of a host has no more than an earlier one, and is the same instance. An owner loses a
resource only when it is closed. -/
structure Service.Fewer (s' s : Service) : Prop where
  serverId : s'.serverId = s.serverId
  holds : ∀ r, s'.holds r = true → s.holds r = true
  owners : ∀ r owner, s'.owners.lookup r = some owner → s.owners.lookup r = some owner
  gone : ∀ r owner, s.owners.lookup r = some owner →
    s'.owners.lookup r = some owner ∨ s'.holds r = false

namespace Service

theorem Fewer.refl (s : Service) : Fewer s s :=
  ⟨rfl, fun _ h => h, fun _ _ h => h, fun _ _ h => .inl h⟩

theorem Fewer.not_holds {s' s : Service} {r : Resource} (h : Fewer s' s) (hr : s.holds r = false) :
    s'.holds r = false :=
  Bool.eq_false_iff.2 fun hr' => by simp [h.holds r hr'] at hr

theorem Fewer.trans {s'' s' s : Service} (h : Fewer s'' s') (h' : Fewer s' s) : Fewer s'' s := by
  refine ⟨h.serverId.trans h'.serverId, fun r hr => h'.holds r (h.holds r hr),
    fun r o ho => h'.owners r o (h.owners r o ho), fun r o ho => ?_⟩
  rcases h'.gone r o ho with ho | hr
  · exact h.gone r o ho
  · exact .inr (h.not_holds hr)

theorem lookup_of_drop {κ β : Type} [DecidableEq κ] {key k : κ} {v : β} {l : List (κ × β)}
    (h : (Assoc.drop key l).lookup k = some v) : l.lookup k = some v := by
  rw [Assoc.lookup_drop] at h
  split_ifs at h
  exact h

theorem isSome_of_drop {κ β : Type} [DecidableEq κ] {key k : κ} {l : List (κ × β)}
    (h : ((Assoc.drop key l).lookup k).isSome) : (l.lookup k).isSome := by
  obtain ⟨v, hv⟩ := Option.isSome_iff_exists.1 h
  exact Option.isSome_iff_exists.2 ⟨v, lookup_of_drop hv⟩

/-- A closed resource is gone, and nobody's. -/
theorem close_gone (s : Service) (r : Resource) :
    (s.close r).holds r = false ∧ (s.close r).owners.lookup r = none := by
  cases r <;> simp [close, forget, holds, Assoc.lookup_drop]

theorem close_fewer (s : Service) (r : Resource) : Fewer (s.close r) s := by
  refine ⟨by cases r <;> rfl, fun other h => ?_, fun other o h => ?_, fun other o h => ?_⟩
  · cases r <;> cases other <;> first | exact isSome_of_drop h | exact h
  · cases r <;> exact lookup_of_drop h
  · by_cases hr : other = r
    · subst hr
      exact .inr (close_gone s other).1
    · cases r <;> exact .inl (by simpa [close, forget, Assoc.lookup_drop, hr] using h)

theorem closeEach_cons (owner : String) (s : Service) (r : Resource) (rest : List Resource) :
    closeEach owner s (r :: rest) =
      closeEach owner (if s.owners.lookup r = some owner then s.close r else s) rest := rfl

theorem closeEach_fewer (owner : String) :
    ∀ (resources : List Resource) (s : Service), Fewer (closeEach owner s resources) s
  | [], s => Fewer.refl s
  | r :: rest, s => by
    rw [closeEach_cons]
    refine (closeEach_fewer owner rest _).trans ?_
    split_ifs
    · exact close_fewer s r
    · exact Fewer.refl s

/-- After the loop the owner has none of the resources. -/
theorem closeEach_gone {owner : String} : ∀ {resources : List Resource} {s : Service} {r : Resource},
    r ∈ resources → (closeEach owner s resources).owners.lookup r ≠ some owner
  | r :: rest, s, r', h => by
    rw [closeEach_cons]
    rcases List.mem_cons.1 h with rfl | h
    · intro hr
      have := (closeEach_fewer owner rest _).owners _ _ hr
      split_ifs at this with hown
      · rw [(close_gone s r').2] at this
        cases this
      · exact hown this
    · exact closeEach_gone h

theorem answer_fewer {s : Service} {request : HostRequest} (h : request.closes = true) :
    Fewer (s.answer request).2 s := by
  cases request with
  | adopt => cases h
  | closeAgentSession id => simpa only [answer] using close_fewer s _
  | closeTerminal id => simpa only [answer] using close_fewer s _
  | closeOwned server owner resources =>
    rw [answer]
    rcases validateResources owner resources with e | ⟨⟩
    · exact Fewer.refl s
    · dsimp only
      split_ifs
      · exact Fewer.refl s
      · exact closeEach_fewer owner resources s

end Service

namespace World

def Confirmed (w : World) (host : String) (r : Resource) : Prop :=
  ∃ resources, .closed host resources ∈ w.log ∧ r ∈ resources

def Sent (w : World) (host : String) (request : HostRequest) : Prop := .sent host request ∈ w.log

/-- The log is begun anew. -/
def begin (w : World) : World := { w with log := [] }

/-- What a call that closes resources on a host did. -/
structure Closing (w w' : World) (host : String) (resources : List Resource) (ok : Prop) :
    Prop where
  failing : w'.failing = w.failing
  fewer : ∀ h, (w'.services h).Fewer (w.services h)
  confirmed : ∀ h r, w'.Confirmed h r ↔ w.Confirmed h r ∨ (ok ∧ h = host ∧ r ∈ resources)
  sent : ∀ h request, w'.Sent h request →
    w.Sent h request ∨ (h = host ∧ request.closes = true ∧ request.resources ⊆ resources)

variable {w w' w'' : World} {host : String} {client client' : Client} {resources : List Resource}
  {request : HostRequest}

/-- Nothing happened but attempts. -/
theorem Closing.none (hservices : w'.services = w.services) (hfailing : w'.failing = w.failing)
    (hlog : w'.log = w.log) : Closing w w' host resources False := by
  refine ⟨hfailing, fun h => ?_, fun h r => ?_, fun h request hs => .inl ?_⟩
  · rw [hservices]
    exact .refl _
  · simp [Confirmed, hlog]
  · rwa [Sent, hlog] at hs

/-- A call that failed, and another one. -/
theorem Closing.then {ok : Prop} (h : Closing w w' host resources False)
    (h' : Closing w' w'' host resources ok) : Closing w w'' host resources ok := by
  refine ⟨h'.failing.trans h.failing, fun x => (h'.fewer x).trans (h.fewer x), fun x r => ?_,
    fun x request hs => ?_⟩
  · rw [h'.confirmed, h.confirmed]
    simp
  · rcases h'.sent x request hs with hs | hs
    · exact h.sent x request hs
    · exact .inr hs

theorem Closing.congr {ok ok' : Prop} (h : Closing w w' host resources ok) (hok : ok ↔ ok') :
    Closing w w' host resources ok' := by
  rwa [← propext hok]

theorem confirmed_write {events : List WireEvent} {h : String} {r : Resource} :
    (w.write events).Confirmed h r ↔
      w.Confirmed h r ∨ ∃ resources, .closed h resources ∈ events ∧ r ∈ resources := by
  simp [Confirmed, write, or_and_right, exists_or]

theorem connect_closing : Closing w (w.connect host).2 host resources False := by
  unfold connect
  split_ifs
  · exact .none rfl rfl rfl
  · exact .none rfl rfl rfl

/-- A host that can be reached is reached. -/
theorem connect_reachable (h : w.failing host = false) :
    w.connect host = (.ok { serverId := (w.services host).serverId }, w) := by
  simp [connect, h]

theorem serve_fewer (hreq : request.closes = true) (h : String) :
    ((w.serve host request).services h).Fewer (w.services h) := by
  by_cases hh : h = host
  · subst hh
    simpa [serve] using Service.answer_fewer hreq
  · simpa [serve, hh] using Service.Fewer.refl _

/-- A request was sent, and not answered with success. -/
theorem Closing.unanswered (hreq : request.closes = true)
    (hfewer : ∀ h, (w'.services h).Fewer (w.services h)) (hfailing : w'.failing = w.failing)
    (hlog : w'.log = w.log ++ [.sent host request]) :
    Closing w w' host request.resources False := by
  refine ⟨hfailing, hfewer, fun h r => ?_, fun h other hs => ?_⟩
  · simp [Confirmed, hlog]
  · simp only [Sent, hlog, List.mem_append, List.mem_singleton, WireEvent.sent.injEq] at hs
    rcases hs with hs | ⟨rfl, rfl⟩
    · exact .inl hs
    · exact .inr ⟨rfl, hreq, List.Subset.refl _⟩

/-- An exchange sends its request at most once. -/
theorem exchange_closing (hreq : request.closes = true) :
    Closing w (w.exchange host client request).2.2 host request.resources
      ((w.exchange host client request).1 = .ok .closed) := by
  unfold exchange
  by_cases hbroken : client.broken
  · simpa [hbroken] using Closing.none rfl rfl rfl
  by_cases hfail : w.failing host
  · have hsent : Closing w ((if (w.faults w.attempts).applied then
          ({ w with attempts := w.attempts + 1 } : World).serve host request
        else { w with attempts := w.attempts + 1 }).write [.sent host request]) host
        request.resources False := by
      refine .unanswered hreq (fun h => ?_) ?_ ?_ <;> split_ifs
      · exact serve_fewer hreq h
      · exact .refl _
      all_goals rfl
    simp only [hbroken, hfail, Bool.false_eq_true, if_false, if_true]
    by_cases hanswered : (w.faults w.attempts).answered
    · rw [if_pos hanswered]
      exact hsent.congr (by simp)
    · rw [if_neg hanswered]
      exact hsent.congr (by simp)
  by_cases halive : client.alive
  · simp only [hbroken, hfail, halive, Bool.false_eq_true, if_false, Bool.not_true]
    refine ⟨rfl, fun h => serve_fewer hreq h, fun h r => ?_, fun h other hs => ?_⟩
    · rw [confirmed_write]
      refine or_congr Iff.rfl ?_
      by_cases hreply : ((w.services host).answer request).1 = .closed
      · simp [hreply]
      · simp [hreply]
    · have hs : WireEvent.sent h other ∈ w.log ∨ (h = host ∧ other = request) := by
        by_cases hreply : ((w.services host).answer request).1 = .closed <;>
          simpa [Sent, write, serve, hreply] using hs
      rcases hs with hs | ⟨rfl, rfl⟩
      · exact .inl hs
      · exact .inr ⟨rfl, hreq, List.Subset.refl _⟩
  · simpa [hbroken, hfail, halive] using Closing.none rfl rfl rfl

/-- On a host that can be reached, a fresh bridge has every request answered. -/
theorem exchange_reachable (hfail : w.failing host = false) (hbroken : client.broken = false)
    (halive : client.alive = true) :
    ∃ w', w.exchange host client request =
      (.ok ((w.services host).answer request).1, client, w') ∧
        w'.services = Function.update w.services host ((w.services host).answer request).2 := by
  simp [exchange, hfail, hbroken, halive, write, serve]

variable {server owner : String}

theorem closeOwnedResources_closing :
    Closing w (w.closeOwnedResources host client server owner resources).2.2 host resources
      ((w.closeOwnedResources host client server owner resources).1 = .ok ()) := by
  unfold closeOwnedResources
  split_ifs with hserver
  · refine ⟨rfl, fun h => .refl _, fun h r => ?_, fun h request hs => .inl ?_⟩
    · rw [confirmed_write]
      simp
    · simpa [Sent, write] using hs
  · have h := @exchange_closing w host client (.closeOwned server owner resources) rfl
    rcases hx : w.exchange host client (.closeOwned server owner resources) with ⟨_ | _ | _, c, w'⟩
    all_goals
      rw [hx] at h
      exact h.congr (by simp)

/-- A host that can be reached takes every batch that is well formed. -/
theorem closeOwnedResources_reachable (hfail : w.failing host = false)
    (hbroken : client.broken = false) (halive : client.alive = true)
    (hclient : client.serverId = (w.services host).serverId) :
    ((w.closeOwnedResources host client server owner resources).1 = .ok () ↔
        (server = (w.services host).serverId → validateResources owner resources = .ok ())) ∧
      ((w.closeOwnedResources host client server owner resources).1 = .ok () →
        server = (w.services host).serverId → ∀ r ∈ resources,
          (((w.closeOwnedResources host client server owner resources).2.2.services host).owners.lookup
            r) ≠ some owner) := by
  unfold closeOwnedResources
  rw [hclient]
  by_cases hserver : server = (w.services host).serverId
  · rw [if_neg (not_not_intro hserver)]
    obtain ⟨w', hx, hservices⟩ := @exchange_reachable w host client
      (.closeOwned server owner resources) hfail hbroken halive
    rw [Service.answer] at hx hservices
    rcases hvalid : validateResources owner resources with e | ⟨⟩
    · rw [hvalid] at hx
      rw [hx]
      simp [hserver]
    · rw [hvalid] at hx hservices
      rw [hx]
      refine ⟨by simp, fun _ _ r hr => ?_⟩
      dsimp only
      rw [hservices, Function.update_self, if_neg (not_not_intro hserver)]
      exact Service.closeEach_gone hr
  · rw [if_pos hserver]
    simp [hserver]

end World

namespace Connections

variable {s : Connections} {w : World} {host : String} {client : Client} {r : Resource}

theorem guardedClose_closing_eq :
    s.guardedClose w host client r.closing =
      match s.ownedInstances.lookup (host, r) with
      | some server =>
        ((w.closeOwnedResources host client server s.owner [r]).1.map fun _ => HostReply.closed,
          (w.closeOwnedResources host client server s.owner [r]).2)
      | none => w.exchange host client r.closing := by
  cases r <;> rfl

theorem guardedClose_closing :
    World.Closing w (s.guardedClose w host client r.closing).2.2 host [r]
      ((s.guardedClose w host client r.closing).1 = .ok .closed) := by
  rw [guardedClose_closing_eq]
  rcases s.ownedInstances.lookup (host, r) with _ | server
  · simpa using @World.exchange_closing w host client r.closing r.closing_closes
  · refine World.closeOwnedResources_closing.congr ?_
    rw [Fallible.map_eq_ok]
    exact ⟨fun h => ⟨(), h, rfl⟩, fun ⟨_, h, _⟩ => h⟩

theorem closeResponse_eq_ok {reply : HostReply} : closeResponse reply = .ok () ↔ reply = .closed := by
  cases reply <;> simp [closeResponse]

theorem closeAfresh_closing :
    World.Closing w (s.closeAfresh w host r.closing).2.2 host [r]
      ((s.closeAfresh w host r.closing).1 = .ok ()) := by
  have hconnect := @World.connect_closing w host [r]
  unfold closeAfresh
  rcases hx : w.connect host with ⟨e | client, w'⟩
  · rw [hx] at hconnect
    exact hconnect.congr (by simp)
  · rw [hx] at hconnect
    refine hconnect.then (guardedClose_closing.congr ?_)
    dsimp only
    rcases (s.guardedClose w' host client r.closing).1 with e | reply <;>
      simp [Except.bind, closeResponse_eq_ok]

theorem closeResource_closing_eq :
    s.closeResource w host r.closing =
      match s.clients.lookup host with
      | none => s.closeAfresh w host r.closing
      | some client =>
        if client.broken then s.closeAfresh w host r.closing
        else
          match s.guardedClose w host client r.closing with
          | (.ok reply, client, w) => (closeResponse reply, s.withClient host client, w)
          | (.error _, client, w) => (s.withClient host client).closeAfresh w host r.closing := by
  cases r <;> rfl

/-- A resource is asked to close once more at most, on a fresh bridge. -/
theorem closeResource_closing :
    World.Closing w (s.closeResource w host r.closing).2.2 host [r]
      ((s.closeResource w host r.closing).1 = .ok ()) := by
  rw [closeResource_closing_eq]
  rcases s.clients.lookup host with _ | client
  · exact closeAfresh_closing
  by_cases hbroken : client.broken
  · simpa only [hbroken, if_true] using closeAfresh_closing
  simp only [hbroken, Bool.false_eq_true, if_false]
  have hclose := @guardedClose_closing s w host client r
  rcases hx : s.guardedClose w host client r.closing with ⟨e | reply, client', w'⟩
  · rw [hx] at hclose
    exact (hclose.congr (by simp)).then closeAfresh_closing
  · rw [hx] at hclose
    exact hclose.congr (by simp [closeResponse_eq_ok])

theorem closeAfresh_desktop {request : HostRequest} :
    ∃ clients, (s.closeAfresh w host request).2.1 = { s with clients } := by
  unfold closeAfresh
  rcases w.connect host with ⟨e | client, w'⟩
  · exact ⟨s.clients, rfl⟩
  · exact ⟨_, rfl⟩

/-- Nothing but the bridges of the desktop is touched. -/
theorem closeResource_desktop :
    ∃ clients, (s.closeResource w host r.closing).2.1 = { s with clients } := by
  rw [closeResource_closing_eq]
  rcases s.clients.lookup host with _ | client
  · exact closeAfresh_desktop
  dsimp only
  split_ifs
  · exact closeAfresh_desktop
  rcases s.guardedClose w host client r.closing with ⟨e | reply, client', w'⟩
  · obtain ⟨clients, h⟩ := @closeAfresh_desktop (s.withClient host client') w' host r.closing
    exact ⟨clients, h.trans rfl⟩
  · exact ⟨_, rfl⟩

theorem answer_closing (service : Service) :
    service.answer r.closing = (.closed, service.close r) := by
  cases r <;> rfl

/-- On a host that can be reached, a fresh bridge closes what was not claimed. -/
theorem closeAfresh_reachable (hfail : w.failing host = false)
    (hown : s.ownedInstances.lookup (host, r) = none) :
    (s.closeAfresh w host r.closing).1 = .ok () ∧
      ((s.closeAfresh w host r.closing).2.2.services host).holds r = false := by
  unfold closeAfresh
  rw [World.connect_reachable hfail]
  dsimp only
  obtain ⟨w', hx, hservices⟩ := @World.exchange_reachable w host
    { serverId := (w.services host).serverId } r.closing hfail rfl rfl
  rw [answer_closing] at hx hservices
  rw [guardedClose_closing_eq, hown]
  dsimp only
  rw [hx]
  refine ⟨rfl, ?_⟩
  dsimp only
  rw [hservices, Function.update_self]
  exact (Service.close_gone _ r).1

/-- A bridge that is dead is replaced, so on a host that can be reached every close of a resource
that was not claimed is confirmed. -/
theorem closeResource_reachable (hfail : w.failing host = false)
    (hown : s.ownedInstances.lookup (host, r) = none) :
    (s.closeResource w host r.closing).1 = .ok () ∧
      ((s.closeResource w host r.closing).2.2.services host).holds r = false := by
  rw [closeResource_closing_eq]
  rcases s.clients.lookup host with _ | client
  · exact closeAfresh_reachable hfail hown
  by_cases hbroken : client.broken
  · simpa only [hbroken, if_true] using closeAfresh_reachable hfail hown
  simp only [hbroken, Bool.false_eq_true, if_false]
  have hclose := @guardedClose_closing s w host client r
  rw [guardedClose_closing_eq, hown] at hclose ⊢
  dsimp only at hclose ⊢
  by_cases halive : client.alive
  · obtain ⟨w', hx, hservices⟩ := @World.exchange_reachable w host client r.closing hfail
      (by simpa using hbroken) halive
    rw [answer_closing] at hx hservices
    rw [hx]
    refine ⟨rfl, ?_⟩
    dsimp only
    rw [hservices, Function.update_self]
    exact (Service.close_gone _ r).1
  · have hx : w.exchange host client r.closing =
        (.error "Host 连接已关闭", { client with broken := true }, w) := by
      simp [World.exchange, hbroken, hfail, halive]
    rw [hx]
    exact closeAfresh_reachable hfail hown

end Connections

end LatteWork
