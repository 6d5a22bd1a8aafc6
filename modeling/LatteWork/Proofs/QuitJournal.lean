import LatteWork.Desktop.PendingClose
import LatteWork.Proofs.QuitCloses
import LatteWork.Wire.JsonSize

/-!
# The quit journal

A journal the desktop wrote is one it can read as long as no limit of the reader is passed. Draining
goes through the files in order and stops at the first one that cannot be read, settled or written;
the files before that one have lost their entries for the host.
-/

namespace LatteWork

open Fallible

variable {uuid : String → Option String}

namespace Connections

theorem mapM_ok_forall₂ {α β : Type} {f : α → Except String β} :
    ∀ {l : List α} {bs : List β}, l.mapM f = .ok bs → List.Forall₂ (fun a b => f a = .ok b) l bs
  | [], bs, h => by
    obtain rfl : [] = bs := by simpa [pure, Except.pure] using h
    exact .nil
  | a :: l, bs, h => by
    rw [List.mapM_cons] at h
    obtain ⟨b, hb, h⟩ := bind_eq_ok.1 h
    obtain ⟨rest, hrest, h⟩ := bind_eq_ok.1 h
    obtain rfl := pure_eq_ok.1 h
    exact .cons hb (mapM_ok_forall₂ hrest)

/-- Each group of claimed resources is one entry. -/
theorem intent_groups {s : Connections} {i : Intent} (h : s.intent = .ok i) :
    i.ownerId = s.owner ∧
      i.hosts.map (·.resources) = s.grouped.entries.map (·.2) := by
  obtain ⟨hosts, hhosts, hi⟩ := bind_eq_ok.1 h
  obtain rfl := Except.ok.inj hi
  refine ⟨rfl, ?_⟩
  change hosts.map (·.resources) = _
  have hall := mapM_ok_forall₂ hhosts
  clear hhosts hi h
  generalize s.grouped.entries = groups at hall ⊢
  induction hall with
  | nil => rfl
  | cons hab _ ih =>
    obtain ⟨host, -, hb⟩ := bind_eq_ok.1 hab
    obtain rfl := Except.ok.inj hb
    exact congrArg (List.cons _) ih

/-- The reader's limits. -/
def WithinLimits (s : Connections) : Prop :=
  s.grouped.entries.length ≤ 128 ∧ ∀ g ∈ s.grouped.entries, g.2.length ≤ 128

theorem withinLimits_iff {s : Connections} {i : Intent} (h : s.intent = .ok i) :
    s.WithinLimits ↔ ¬(128 < i.hosts.length ∨ ∃ item ∈ i.hosts, 128 < item.resources.length) := by
  have hgroups := (intent_groups h).2
  have hlen : i.hosts.length = s.grouped.entries.length := by
    simpa using congrArg List.length hgroups
  rw [WithinLimits, not_or, not_lt, hlen]
  refine and_congr_right fun _ => ?_
  have hleft : (∀ g ∈ s.grouped.entries, g.2.length ≤ 128) ↔
      ∀ l ∈ s.grouped.entries.map (·.2), l.length ≤ 128 := by
    rw [List.forall_mem_map]
  have hright : (∀ item ∈ i.hosts, item.resources.length ≤ 128) ↔
      ∀ l ∈ i.hosts.map (·.resources), l.length ≤ 128 := by
    rw [List.forall_mem_map]
  rw [hleft, ← hgroups, ← hright]
  simp

/-- What `persist` stored is read again exactly within the reader's limits. -/
theorem persist_read {s : Connections} {j j' : Journal} (howner : uuid s.owner = some s.owner)
    (h : s.persist uuid j = (.ok (), j')) :
    (j'.files.find? (Journal.path s.owner) = none ∨
      ∃ i, s.intent = .ok i ∧ j'.read uuid (Journal.path s.owner) = .ok i) ↔ s.WithinLimits := by
  unfold persist at h
  rcases hintent : s.intent with e | i
  · simp [hintent] at h
  rw [withinLimits_iff hintent]
  have hid := (intent_groups hintent).1
  rw [hintent] at h
  dsimp only at h
  rcases hlock : j.lockError with _ | e
  swap
  · simp [hlock] at h
  rw [hlock] at h
  unfold Journal.write at h
  simp only [hid, howner] at h
  split at h
  · simp at h
  split_ifs at h with hnil hsize
  · have hj' : j' = { j with files := j.files.erase (Journal.path s.owner) } := by
      split at h
      · simp at h
      · exact ((Prod.mk.inj h).2).symm
    rw [hj', hnil, OrdMap.find?_erase]
    simp
  · simp at h
  · let file := JournalFile.regular i.toJson.size (.ok i)
    have hj' : j' = { j with files := j.files.insert (Journal.path s.owner) file } := by
      split at h
      · exact ((Prod.mk.inj h).2).symm
      · simp at h
      · simp at h
    have hread : j'.read uuid (Journal.path s.owner) =
        (do bailIf (128 < i.hosts.length ∨ ∃ item ∈ i.hosts, 128 < item.resources.length) "无效关闭记录"
            .ok i) := by
      rw [Journal.read, hj', OrdMap.find?_insert, if_pos rfl]
      dsimp only [file]
      rw [bailIf_pass hsize]
      simp only [bind, Except.bind, hid, howner, orError, ne_eq, not_true_eq_false, false_or]
    rw [hread, hj', OrdMap.find?_insert, if_pos rfl]
    simp only [reduceCtorEq, false_or, Except.ok.injEq, exists_eq_left']
    by_cases hlimit : 128 < i.hosts.length ∨ ∃ item ∈ i.hosts, 128 < item.resources.length
    · rw [bailIf_error hlimit]
      simp [hlimit]
    · rw [bailIf_pass hlimit]
      simp [hlimit]

end Connections

namespace World

variable {w : World} {host : String} {client : Client} {request : HostRequest}

/-- A bridge to a host that answers. -/
def Answers (w : World) (host : String) (client : Client) : Prop :=
  client.broken = false ∧ client.alive = true ∧ w.failing host = false

theorem exchange_sent :
    (w.exchange host client request).2.2.failing = w.failing ∧
      ∀ h other, (w.exchange host client request).2.2.Sent h other →
        w.Sent h other ∨ (h = host ∧ other = request) := by
  unfold exchange
  split_ifs <;> simp [Sent, write, serve] <;> grind

/-- Where nothing fails, an exchange gives the host's answer over the bridge as it was. -/
theorem exchange_answers (h : w.Answers host client) :
    (w.exchange host client request).1 = .ok ((w.services host).answer request).1 ∧
      (w.exchange host client request).2.1 = client := by
  obtain ⟨hbroken, halive, hfail⟩ := h
  simp [exchange, hbroken, halive, hfail]

theorem exchange_fails (h : ¬w.Answers host client) :
    (∃ e, (w.exchange host client request).1 = .error e) ∨
      ∃ e, (w.exchange host client request).1 = .ok (.error e) := by
  unfold exchange
  by_cases hbroken : client.broken
  · rw [if_pos hbroken]
    exact .inl ⟨_, rfl⟩
  rw [if_neg hbroken]
  by_cases hfail : w.failing host
  · rw [if_pos hfail]
    dsimp only
    by_cases hanswered : (w.faults w.attempts).answered
    · rw [if_pos hanswered]
      exact .inr ⟨_, rfl⟩
    · rw [if_neg hanswered]
      exact .inl ⟨_, rfl⟩
  rw [if_neg hfail]
  by_cases halive : client.alive
  · exact absurd ⟨by simpa using hbroken, halive, by simpa using hfail⟩ h
  · rw [if_pos (by simpa using halive)]
    exact .inl ⟨_, rfl⟩

end World

namespace Journal

variable {owner : String} {host : HostTarget} {intent : Intent} {item : HostIntent}
  {client : Client} {w : World}

/-- What is sent for an entry. -/
def requestFor (owner : String) (host : HostTarget) (intent : Intent) (item : HostIntent) :
    HostRequest :=
  match host.ssh with
  | some _ => .adopt item.serverId intent.ownerId owner item.resources
  | none => .closeOwned item.serverId intent.ownerId item.resources

/-- A host takes the request for an entry. -/
def WellFormed (owner : String) (host : HostTarget) (intent : Intent) (item : HostIntent) : Prop :=
  match host.ssh with
  | some _ => validateResources owner item.resources = .ok () ∧
      ¬(intent.ownerId = "" ∨ 128 < intent.ownerId.utf8ByteSize)
  | none => validateResources intent.ownerId item.resources = .ok ()

/-- An entry cannot be settled: it is for the instance the bridge leads to, which does not answer or
does not take the request. -/
def Refuses (w : World) (client : Client) (owner : String) (host : HostTarget) (intent : Intent)
    (item : HostIntent) : Prop :=
  item.serverId = client.serverId ∧
    (w.Answers host.id client → ¬WellFormed owner host intent item)

theorem settle_sent :
    (settle owner host intent item client w).2.2.failing = w.failing ∧
      ∀ h other, (settle owner host intent item client w).2.2.Sent h other →
        w.Sent h other ∨ (h = host.id ∧ other = requestFor owner host intent item) := by
  unfold settle requestFor
  rcases host.ssh with _ | ssh
  · dsimp only
    unfold World.closeOwnedResources
    split_ifs
    · exact ⟨rfl, fun h other hs => .inl (by simpa [World.Sent, World.write] using hs)⟩
    · have := @World.exchange_sent w host.id client
        (.closeOwned item.serverId intent.ownerId item.resources)
      generalize w.exchange host.id client _ = x at this
      rcases x with ⟨_ | _ | _, c, w'⟩ <;> exact this
  · dsimp only
    unfold World.adoptResources
    split_ifs
    · exact ⟨rfl, fun h other hs => .inl hs⟩
    · have := @World.exchange_sent w host.id client
        (.adopt item.serverId intent.ownerId owner item.resources)
      generalize w.exchange host.id client _ = x at this
      rcases x with ⟨_ | _ | _, c, w'⟩ <;> exact this

theorem adopt_isOk {s : Service} {serverId previous : String} {resources : List Resource} :
    (∃ out, s.adopt serverId previous owner resources = .ok out) ↔
      validateResources owner resources = .ok () ∧
        ¬(previous = "" ∨ 128 < previous.utf8ByteSize) := by
  unfold Service.adopt
  rcases validateResources owner resources with e | ⟨⟩
  · simp [bind, Except.bind]
  · by_cases hprev : previous = "" ∨ 128 < previous.utf8ByteSize
    · simp [bind, Except.bind, bailIf, hprev]
    · simp only [bind, Except.bind, bailIf, hprev, if_false]
      split_ifs <;> simp

/-- An entry is settled unless it cannot be. -/
theorem settle_result :
    (¬Refuses w client owner host intent item →
        (∃ adopted, (settle owner host intent item client w).1 = .ok adopted) ∧
          (settle owner host intent item client w).2.1 = client) ∧
      (Refuses w client owner host intent item →
        ∃ e, (settle owner host intent item client w).1 = .error e) := by
  unfold settle Refuses WellFormed
  rcases host.ssh with _ | ssh
  · dsimp only
    unfold World.closeOwnedResources
    by_cases hserver : item.serverId = client.serverId
    swap
    · rw [if_pos hserver]
      simp [hserver, Except.map]
    rw [if_neg (not_not_intro hserver)]
    by_cases hans : w.Answers host.id client
    · obtain ⟨hreply, hclient⟩ := @World.exchange_answers w host.id client
        (.closeOwned item.serverId intent.ownerId item.resources) hans
      generalize w.exchange host.id client _ = x at hreply hclient
      obtain ⟨reply, client', w'⟩ := x
      obtain rfl : reply = _ := hreply
      obtain rfl : client' = client := hclient
      rw [Service.answer]
      rcases validateResources intent.ownerId item.resources with e | ⟨⟩
      · simp [hserver, hans, Except.map]
      · simp [hans, Except.map]
    · have hfail := @World.exchange_fails w host.id client
        (.closeOwned item.serverId intent.ownerId item.resources) hans
      generalize w.exchange host.id client _ = x at hfail
      obtain ⟨reply, client', w'⟩ := x
      rcases hfail with ⟨e, rfl : reply = _⟩ | ⟨e, rfl : reply = _⟩ <;>
        simp [hserver, hans, Except.map]
  · dsimp only
    unfold World.adoptResources
    by_cases hserver : item.serverId = client.serverId
    swap
    · rw [if_pos hserver]
      simp [hserver]
    rw [if_neg (not_not_intro hserver)]
    by_cases hans : w.Answers host.id client
    · obtain ⟨hreply, hclient⟩ := @World.exchange_answers w host.id client
        (.adopt item.serverId intent.ownerId owner item.resources) hans
      generalize w.exchange host.id client _ = x at hreply hclient
      obtain ⟨reply, client', w'⟩ := x
      obtain rfl : reply = _ := hreply
      obtain rfl : client' = client := hclient
      have hok := @adopt_isOk owner (w.services host.id) item.serverId intent.ownerId item.resources
      rw [Service.answer]
      generalize (w.services host.id).adopt item.serverId intent.ownerId owner item.resources = y at hok
      rcases y with
        e | ⟨service, adopted⟩
      · have hill := mt hok.2 (by simp)
        simpa [hserver, hans] using hill
      · have hwell := hok.1 ⟨_, rfl⟩
        simp [hans, hwell]
    · have hfail := @World.exchange_fails w host.id client
        (.adopt item.serverId intent.ownerId owner item.resources) hans
      generalize w.exchange host.id client _ = x at hfail
      obtain ⟨reply, client', w'⟩ := x
      rcases hfail with ⟨e, rfl : reply = _⟩ | ⟨e, rfl : reply = _⟩ <;> simp [hserver, hans]

theorem refuses_congr {w' : World} (h : w'.failing = w.failing) :
    Refuses w' client owner host intent item ↔ Refuses w client owner host intent item := by
  unfold Refuses World.Answers
  rw [h]

/-- Entries are settled one after the other, up to one that cannot be. -/
theorem settleAll_spec : ∀ (items : List HostIntent) (client : Client) (w : World),
    (settleAll owner host intent items client w).2.2.failing = w.failing ∧
      (∀ h other, (settleAll owner host intent items client w).2.2.Sent h other →
        w.Sent h other ∨ (h = host.id ∧ ∃ item ∈ items, other = requestFor owner host intent item)) ∧
      ((∀ item ∈ items, ¬Refuses w client owner host intent item) →
        (∃ adopted, (settleAll owner host intent items client w).1 = .ok adopted) ∧
          (settleAll owner host intent items client w).2.1 = client) ∧
      ((∃ item ∈ items, Refuses w client owner host intent item) →
        ∃ e, (settleAll owner host intent items client w).1 = .error e)
  | [], client, w => by simp [settleAll]
  | item :: rest, client, w => by
    obtain ⟨hfailing, hsent⟩ := @settle_sent owner host intent item client w
    obtain ⟨hok, herr⟩ := @settle_result owner host intent item client w
    unfold settleAll
    generalize settle owner host intent item client w = x at hfailing hsent hok herr
    obtain ⟨e | adopted, client', w'⟩ := x
    · have href : Refuses w client owner host intent item := by
        by_contra hnot
        obtain ⟨⟨_, h⟩, -⟩ := hok hnot
        cases h
      refine ⟨hfailing, fun h other hs => (hsent h other hs).imp_right fun ⟨hh, ho⟩ =>
        ⟨hh, item, List.mem_cons_self, ho⟩, fun hall => ?_, fun _ => ⟨e, rfl⟩⟩
      exact absurd href (hall item List.mem_cons_self)
    · have hnot : ¬Refuses w client owner host intent item := fun href => by
        obtain ⟨_, h⟩ := herr href
        cases h
      obtain rfl : client' = client := (hok hnot).2
      obtain ⟨hfailing', hsent', hok', herr'⟩ := settleAll_spec rest client' w'
      have hcongr := fun item => @refuses_congr owner host intent item client' w w' hfailing
      simp only [hcongr] at hok' herr'
      dsimp only
      generalize settleAll owner host intent rest client' w' = y at hfailing' hsent' hok' herr'
      obtain ⟨result, client'', w''⟩ := y
      refine ⟨hfailing'.trans hfailing, fun h other hs => ?_, fun hall => ?_, fun hex => ?_⟩
      · rcases hsent' h other hs with hs | ⟨hh, i, hi, ho⟩
        · exact (hsent h other hs).imp_right fun ⟨hh, ho⟩ => ⟨hh, item, List.mem_cons_self, ho⟩
        · exact .inr ⟨hh, i, List.mem_cons_of_mem _ hi, ho⟩
      · obtain ⟨⟨more, rfl : result = _⟩, hclient⟩ :=
          hok' fun i hi => hall i (List.mem_cons_of_mem _ hi)
        exact ⟨⟨_, rfl⟩, hclient⟩
      · obtain ⟨i, hi, href⟩ := hex
        rcases List.mem_cons.1 hi with rfl | hi
        · exact absurd href hnot
        · obtain ⟨e, rfl : result = _⟩ := herr' ⟨i, hi, href⟩
          exact ⟨e, rfl⟩

/-- The entries in a file that can be decoded. -/
def hosts (j : Journal) (name : String) : List HostIntent :=
  match j.files.find? name with
  | some (.regular _ (.ok intent)) => intent.hosts
  | _ => []

def entriesFor (j : Journal) (host : HostTarget) (name : String) : List HostIntent :=
  (j.hosts name).filter (sameTarget ·.host host)

def entriesOfOthers (j : Journal) (host : HostTarget) (name : String) : List HostIntent :=
  (j.hosts name).filter (!sameTarget ·.host host)

/-- What is left of a file. -/
def rest (host : HostTarget) (intent : Intent) : Intent :=
  { intent with hosts := intent.hosts.filter (!sameTarget ·.host host) }

theorem read_ok {j : Journal} {name : String} (h : j.read uuid name = .ok intent) :
    (∃ size, j.files.find? name = some (.regular size (.ok intent))) ∧
      ∃ o, uuid intent.ownerId = some o ∧ name = path o := by
  unfold read at h
  split at h
  · cases h
  · cases h
  · rename_i size content hfind
    obtain ⟨_, _, h⟩ := bind_eq_ok.1 h
    obtain ⟨i, hcontent, h⟩ := bind_eq_ok.1 h
    obtain ⟨o, ho, h⟩ := bind_eq_ok.1 h
    obtain ⟨_, hbail, h⟩ := bind_eq_ok.1 h
    obtain rfl := Except.ok.inj h
    have hbail := bailIf_eq_ok.1 hbail
    refine ⟨⟨size, by rw [hfind, hcontent]⟩, o, orError_eq_ok.1 ho, ?_⟩
    by_contra hne
    exact hbail (.inl hne)

theorem hosts_of_read {j : Journal} {name : String} (h : j.read uuid name = .ok intent) :
    j.hosts name = intent.hosts := by
  obtain ⟨⟨size, hfind⟩, -⟩ := read_ok h
  rw [hosts, hfind]

section

variable (uuid) (owner : String) (host : HostTarget) (client : Client) (w : World)

/-- Draining stops at a file and leaves it as it is: it cannot be read, one of its entries cannot be
settled, or it cannot be written. -/
def Blocks (j : Journal) (name : String) : Prop :=
  ∀ intent, j.read uuid name = .ok intent →
    (∃ item ∈ intent.hosts.filter (sameTarget ·.host host), Refuses w client owner host intent item) ∨
      (∃ e, j.faults name = some (.kept e)) ∨
      ((rest host intent).hosts ≠ [] ∧ journalLimit < (rest host intent).toJson.size)

/-- The disk fails behind the replacement of the file. -/
def Replaces (j : Journal) (name : String) : Prop :=
  (∃ e, j.faults name = some (.replaced e)) ∧
    ∃ intent, j.read uuid name = .ok intent ∧ (rest host intent).hosts ≠ []

/-- Draining stops at a file. -/
def Stops (j : Journal) (name : String) : Prop :=
  Blocks uuid owner host client w j name ∨ Replaces uuid host j name

end

/-- What draining one file does. -/
structure FileDrained (uuid : String → Option String) (owner : String) (host : HostTarget)
    (name : String) (j : Journal) (client : Client) (w : World)
    (out : Except String (List Resource) × Journal × Client × World) : Prop where
  faults : out.2.1.faults = j.faults
  others : ∀ other, other ≠ name → out.2.1.files.find? other = j.files.find? other
  failing : out.2.2.2.failing = w.failing
  sent : ∀ h request, out.2.2.2.Sent h request → w.Sent h request ∨ (h = host.id ∧
    ∃ intent, j.read uuid name = .ok intent ∧ ∃ item ∈ intent.hosts,
      sameTarget item.host host = true ∧ request = requestFor owner host intent item)
  passed : ¬Stops uuid owner host client w j name →
    (∃ adopted, out.1 = .ok adopted) ∧ out.2.2.1 = client ∧
      out.2.1.hosts name = j.entriesOfOthers host name
  blocked : Blocks uuid owner host client w j name → (∃ e, out.1 = .error e) ∧ out.2.1 = j
  replaced : ¬Blocks uuid owner host client w j name → Replaces uuid host j name →
    (∃ e, out.1 = .error e) ∧ out.2.1.hosts name = j.entriesOfOthers host name

/-- How a file that was read is written again. -/
inductive Rewritten (j : Journal) (name : String) (intent : Intent) :
    Except String Unit × Journal → Prop
  | kept (e : String) : (∃ e, j.faults name = some (.kept e)) ∨
      (intent.hosts ≠ [] ∧ journalLimit < intent.toJson.size) → Rewritten j name intent (.error e, j)
  | written (j' : Journal) : ¬(∃ e, j.faults name = some (.kept e)) →
      ¬(intent.hosts ≠ [] ∧ ∃ e, j.faults name = some (.replaced e)) →
      ¬(intent.hosts ≠ [] ∧ journalLimit < intent.toJson.size) →
      j'.faults = j.faults → (∀ other, other ≠ name → j'.files.find? other = j.files.find? other) →
      j'.hosts name = intent.hosts → Rewritten j name intent (.ok (), j')
  | replaced (e : String) (j' : Journal) : intent.hosts ≠ [] →
      (∃ e, j.faults name = some (.replaced e)) → ¬journalLimit < intent.toJson.size →
      j'.faults = j.faults → (∀ other, other ≠ name → j'.files.find? other = j.files.find? other) →
      j'.hosts name = intent.hosts → Rewritten j name intent (.error e, j')

theorem write_rewritten {j : Journal} {o : String} {size : ℕ} {content : Except String Intent}
    (ho : uuid intent.ownerId = some o)
    (hfind : j.files.find? (path o) = some (.regular size content)) :
    Rewritten j (path o) intent (j.write uuid intent) := by
  have hinsert : ∀ {file : JournalFile} {other : String}, other ≠ path o →
      (j.files.insert (path o) file).find? other = j.files.find? other := fun hne => by
    rw [OrdMap.find?_insert, if_neg hne]
  unfold write
  simp only [ho, hfind]
  by_cases hnil : intent.hosts = []
  · rw [if_pos hnil]
    rcases hfault : j.faults (path o) with _ | ⟨e⟩ | ⟨e⟩
    · refine .written _ (by simp [hfault]) (by simp [hnil]) (by simp [hnil]) rfl
        (fun other hne => ?_) ?_
      · rw [OrdMap.find?_erase, if_neg hne]
      · rw [hosts, OrdMap.find?_erase, if_pos rfl, hnil]
    · exact .kept e (.inl ⟨e, hfault⟩)
    · refine .written _ (by simp [hfault]) (by simp [hnil]) (by simp [hnil]) rfl
        (fun other hne => ?_) ?_
      · rw [OrdMap.find?_erase, if_neg hne]
      · rw [hosts, OrdMap.find?_erase, if_pos rfl, hnil]
  rw [if_neg hnil]
  by_cases hsize : journalLimit < intent.toJson.size
  · rw [if_pos hsize]
    exact .kept _ (.inr ⟨hnil, hsize⟩)
  rw [if_neg hsize]
  rcases hfault : j.faults (path o) with _ | ⟨e⟩ | ⟨e⟩
  · refine .written _ (by simp [hfault]) (by simp [hfault]) (fun h => hsize h.2) rfl
      (fun other hne => hinsert hne) ?_
    rw [hosts, OrdMap.find?_insert, if_pos rfl]
  · exact .kept e (.inl ⟨e, hfault⟩)
  · refine .replaced e _ hnil ⟨e, hfault⟩ hsize rfl (fun other hne => hinsert hne) ?_
    rw [hosts, OrdMap.find?_insert, if_pos rfl]

theorem drainFile_drained (name : String) (j : Journal) (client : Client) (w : World) :
    FileDrained uuid owner host name j client w (drainFile uuid owner host name j client w) := by
  unfold drainFile
  rcases hread : j.read uuid name with e | intent
  · have hblocks : Blocks uuid owner host client w j name := fun i hi => by simp [hread] at hi
    exact ⟨rfl, fun _ _ => rfl, rfl, fun h request hs => .inl hs, fun hn => absurd (.inl hblocks) hn,
      fun _ => ⟨⟨e, rfl⟩, rfl⟩, fun hn => absurd hblocks hn⟩
  obtain ⟨hfailing, hsent, hok, herr⟩ := @settleAll_spec owner host intent
    (intent.hosts.filter (sameTarget ·.host host)) client w
  have hsent' : ∀ h request, (settleAll owner host intent
      (intent.hosts.filter (sameTarget ·.host host)) client w).2.2.Sent h request →
        w.Sent h request ∨ (h = host.id ∧ ∃ intent, j.read uuid name = .ok intent ∧
          ∃ item ∈ intent.hosts, sameTarget item.host host = true ∧
            request = requestFor owner host intent item) := by
    intro h request hs
    refine (hsent h request hs).imp_right fun ⟨hh, item, hitem, hreq⟩ => ?_
    obtain ⟨hmem, hsame⟩ := List.mem_filter.1 hitem
    exact ⟨hh, intent, hread, item, hmem, hsame, hreq⟩
  clear hsent
  dsimp only
  generalize settleAll owner host intent (intent.hosts.filter (sameTarget ·.host host)) client w = x
    at hfailing hsent' hok herr
  obtain ⟨e | adopted, client', w'⟩ := x
  · have hblocks : Blocks uuid owner host client w j name := by
      intro i hi
      obtain rfl : intent = i := Except.ok.inj (hread.symm.trans hi)
      refine .inl ?_
      by_contra hnone
      obtain ⟨⟨_, h⟩, -⟩ := hok fun item hitem href => hnone ⟨item, hitem, href⟩
      cases h
    exact ⟨rfl, fun _ _ => rfl, hfailing, hsent', fun hn => absurd (.inl hblocks) hn,
      fun _ => ⟨⟨e, rfl⟩, rfl⟩, fun hn => absurd hblocks hn⟩
  · have hsettled : ∀ item ∈ intent.hosts.filter (sameTarget ·.host host),
        ¬Refuses w client owner host intent item := fun item hitem href => by
      obtain ⟨_, h⟩ := herr ⟨item, hitem, href⟩
      cases h
    obtain rfl : client' = client := (hok hsettled).2
    have hothers : j.entriesOfOthers host name = (rest host intent).hosts := by
      rw [entriesOfOthers, hosts_of_read hread]
      rfl
    have hblocks : Blocks uuid owner host client' w j name ↔
        (∃ e, j.faults name = some (.kept e)) ∨
          ((rest host intent).hosts ≠ [] ∧ journalLimit < (rest host intent).toJson.size) := by
      constructor
      · exact fun h => (h intent hread).resolve_left fun ⟨item, hitem, href⟩ =>
          hsettled item hitem href
      · intro h i hi
        obtain rfl : intent = i := Except.ok.inj (hread.symm.trans hi)
        exact .inr h
    have hreplaces : Replaces uuid host j name ↔
        (∃ e, j.faults name = some (.replaced e)) ∧ (rest host intent).hosts ≠ [] := by
      simp [Replaces, hread]
    obtain ⟨⟨size, hfind⟩, o, ho, rfl⟩ := read_ok hread
    have hwrite := @write_rewritten uuid (rest host intent) j o size _ ho hfind
    dsimp only
    change FileDrained uuid owner host _ j client' w
      (((j.write uuid (rest host intent)).1.map fun _ => adopted),
        (j.write uuid (rest host intent)).2, client', w')
    generalize j.write uuid (rest host intent) = y at hwrite
    have hpassed : ∀ {P : Prop}, Blocks uuid owner host client' w j (path o) →
        ¬Stops uuid owner host client' w j (path o) → P := fun h hn => absurd (.inl h) hn
    cases hwrite with
    | kept e hkept =>
      have hb := hblocks.2 hkept
      exact ⟨rfl, fun _ _ => rfl, hfailing, hsent', hpassed hb, fun _ => ⟨⟨e, rfl⟩, rfl⟩,
        fun hn => absurd hb hn⟩
    | written j' hkept hreplaced hsize hfaults hrest hhosts =>
      have hb : ¬Blocks uuid owner host client' w j (path o) := fun h =>
        (hblocks.1 h).elim hkept hsize
      have hr : ¬Replaces uuid host j (path o) := fun h =>
        hreplaced (hreplaces.1 h).symm
      exact ⟨hfaults, hrest, hfailing, hsent', fun _ => ⟨⟨adopted, rfl⟩, rfl, hhosts.trans hothers.symm⟩,
        fun h => absurd h hb, fun _ h => absurd h hr⟩
    | replaced e j' hne hfault hsize hfaults hrest hhosts =>
      have hb : ¬Blocks uuid owner host client' w j (path o) := by
        rw [hblocks]
        rintro (⟨e, he⟩ | ⟨-, h⟩)
        · obtain ⟨e', he'⟩ := hfault
          rw [he] at he'
          cases he'
        · exact hsize h
      have hr := hreplaces.2 ⟨hfault, hne⟩
      exact ⟨hfaults, hrest, hfailing, hsent', fun hn => absurd (.inr hr) hn, fun h => absurd h hb,
        fun _ _ => ⟨⟨e, rfl⟩, hhosts.trans hothers.symm⟩⟩

theorem read_congr {j j' : Journal} {name : String}
    (h : j'.files.find? name = j.files.find? name) : j'.read uuid name = j.read uuid name := by
  unfold read
  rw [h]

/-- Whether draining stops at a file is not changed by what happens to the other files. -/
theorem blocks_congr {j j' : Journal} {name : String} {w' : World} (hfaults : j'.faults = j.faults)
    (hfind : j'.files.find? name = j.files.find? name) (hw : w'.failing = w.failing) :
    (Blocks uuid owner host client w' j' name ↔ Blocks uuid owner host client w j name) ∧
      (Replaces uuid host j' name ↔ Replaces uuid host j name) := by
  unfold Blocks Replaces
  simp only [read_congr hfind, hfaults, refuses_congr hw, and_self]

/-- The first file at which draining stops. -/
def StopsAt (uuid : String → Option String) (owner : String) (host : HostTarget) (client : Client)
    (w : World) (j : Journal) (names before : List String) (name : String) : Prop :=
  ∃ behind, names = before ++ name :: behind ∧
    (∀ n ∈ before, ¬Stops uuid owner host client w j n) ∧ Stops uuid owner host client w j name

/-- What draining the files one after the other does. -/
structure Drained (uuid : String → Option String) (owner : String) (host : HostTarget)
    (names : List String) (j : Journal) (client : Client) (w : World)
    (out : Except String (List Resource) × Journal × Client × World) : Prop where
  others : ∀ name, name ∉ names → out.2.1.files.find? name = j.files.find? name
  sent : ∀ h request, out.2.2.2.Sent h request → w.Sent h request ∨ (h = host.id ∧
    ∃ name ∈ names, ∃ intent, j.read uuid name = .ok intent ∧ ∃ item ∈ intent.hosts,
      sameTarget item.host host = true ∧ request = requestFor owner host intent item)
  passed : (∀ name ∈ names, ¬Stops uuid owner host client w j name) →
    (∃ adopted, out.1 = .ok adopted) ∧
      ∀ name ∈ names, out.2.1.hosts name = j.entriesOfOthers host name
  stopped : ∀ before name, StopsAt uuid owner host client w j names before name →
    (∃ e, out.1 = .error e) ∧
      (∀ n ∈ before, out.2.1.hosts n = j.entriesOfOthers host n) ∧
      (∀ n, n ∉ before → n ≠ name → out.2.1.hosts n = j.hosts n) ∧
      (Blocks uuid owner host client w j name → out.2.1.hosts name = j.hosts name) ∧
      (¬Blocks uuid owner host client w j name → out.2.1.hosts name = j.entriesOfOthers host name)

theorem hosts_congr {j j' : Journal} {name : String}
    (h : j'.files.find? name = j.files.find? name) : j'.hosts name = j.hosts name := by
  unfold hosts
  rw [h]

theorem drainFiles_drained : ∀ (names : List String) (j : Journal) (client : Client) (w : World),
    names.Nodup → Drained uuid owner host names j client w (drainFiles uuid owner host names j client w)
  | [], j, client, w, _ => by
    refine ⟨fun _ _ => rfl, fun h request hs => .inl hs, fun _ => ⟨⟨[], rfl⟩, by simp⟩, ?_⟩
    rintro before name ⟨behind, h, -⟩
    simp at h
  | name :: rest, j, client, w, hnodup => by
    obtain ⟨hname, hrest⟩ := List.nodup_cons.1 hnodup
    have hfile := @drainFile_drained uuid owner host name j client w
    unfold drainFiles
    generalize drainFile uuid owner host name j client w = x at hfile
    obtain ⟨e | adopted, j', client', w'⟩ := x
    · have hstops : Stops uuid owner host client w j name := by
        by_contra hn
        obtain ⟨⟨_, h⟩, -⟩ := hfile.passed hn
        cases h
      refine ⟨fun n hn => hfile.others n fun h => hn (by simp [h]), fun h request hs => ?_,
        fun hall => absurd hstops (hall name List.mem_cons_self), ?_⟩
      · exact (hfile.sent h request hs).imp_right fun ⟨hh, hi⟩ =>
          ⟨hh, name, List.mem_cons_self, hi⟩
      · rintro before nm ⟨behind, hsplit, hbefore, hstop⟩
        rcases before with _ | ⟨b, before⟩
        · obtain ⟨rfl, -⟩ := List.cons.inj hsplit
          refine ⟨⟨e, rfl⟩, by simp, fun n _ hn => hosts_congr (hfile.others n hn), fun hb => ?_,
            fun hb => (hfile.replaced hb (hstop.resolve_left hb)).2⟩
          rw [(hfile.blocked hb).2]
        · obtain ⟨rfl, -⟩ := List.cons.inj hsplit
          exact absurd hstops (hbefore _ List.mem_cons_self)
    · have hpass : ¬Stops uuid owner host client w j name := by
        rintro hstop
        by_cases hb : Blocks uuid owner host client w j name
        · obtain ⟨⟨_, h⟩, -⟩ := hfile.blocked hb
          cases h
        · obtain ⟨⟨_, h⟩, -⟩ := hfile.replaced hb (hstop.resolve_left hb)
          cases h
      obtain ⟨-, rfl, hhosts⟩ := hfile.passed hpass
      have hne : ∀ n ∈ rest, n ≠ name := fun n hn h => hname (h ▸ hn)
      have hkeep : ∀ n, n ≠ name → j'.hosts n = j.hosts n := fun n hn =>
        hosts_congr (hfile.others n hn)
      have hcongr := fun n (hn : n ∈ rest) => @blocks_congr uuid owner host client' w j j' n w'
        hfile.faults (hfile.others n (hne n hn)) hfile.failing
      have hstops : ∀ n ∈ rest, (Stops uuid owner host client' w' j' n ↔
          Stops uuid owner host client' w j n) := fun n hn =>
        or_congr (hcongr n hn).1 (hcongr n hn).2
      have ih := drainFiles_drained rest j' client' w' hrest
      dsimp only
      generalize drainFiles uuid owner host rest j' client' w' = y at ih
      obtain ⟨result, j'', client'', w''⟩ := y
      have hlast : j''.hosts name = j.entriesOfOthers host name :=
        (hosts_congr (ih.others name hname)).trans hhosts
      have hothers : ∀ n ∈ rest, j'.entriesOfOthers host n = j.entriesOfOthers host n :=
        fun n hn => by rw [entriesOfOthers, hkeep n (hne n hn), entriesOfOthers]
      refine ⟨fun n hn => ?_, fun h request hs => ?_, fun hall => ?_, ?_⟩
      · obtain ⟨hn, hn'⟩ := not_or.1 fun h => hn (List.mem_cons.2 h)
        exact (ih.others n hn').trans (hfile.others n hn)
      · rcases ih.sent h request hs with hs | ⟨hh, n, hn, intent, hread, hi⟩
        · exact (hfile.sent h request hs).imp_right fun ⟨hh, hi⟩ =>
            ⟨hh, name, List.mem_cons_self, hi⟩
        · rw [read_congr (hfile.others n (hne n hn))] at hread
          exact .inr ⟨hh, n, List.mem_cons_of_mem _ hn, intent, hread, hi⟩
      · obtain ⟨⟨more, rfl : result = _⟩, hdone⟩ := ih.passed fun n hn => by
          rw [hstops n hn]
          exact hall n (List.mem_cons_of_mem _ hn)
        refine ⟨⟨_, rfl⟩, fun n hn => ?_⟩
        rcases List.mem_cons.1 hn with rfl | hn
        · exact hlast
        · exact (hdone n hn).trans (hothers n hn)
      · rintro before nm ⟨behind, hsplit, hbefore, hstop⟩
        rcases before with _ | ⟨b, before⟩
        · obtain ⟨rfl, -⟩ := List.cons.inj hsplit
          exact absurd hstop hpass
        obtain ⟨rfl, hbehind⟩ := List.cons.inj hsplit
        have hsub : ∀ n ∈ before, n ∈ rest := fun n hn => by simp [hbehind, hn]
        have hnm : nm ∈ rest := by simp [hbehind]
        obtain ⟨⟨e, rfl : result = _⟩, hdone, hleft, hblocked, hreplaced⟩ := ih.stopped before nm
          ⟨behind, hbehind, fun n hn => by
            rw [hstops n (hsub n hn)]
            exact hbefore n (List.mem_cons_of_mem _ hn), (hstops nm hnm).2 hstop⟩
        refine ⟨⟨e, rfl⟩, fun n hn => ?_, fun n hn hn' => ?_, fun hb => ?_, fun hb => ?_⟩
        · rcases List.mem_cons.1 hn with rfl | hn
          · exact hlast
          · exact (hdone n hn).trans (hothers n (hsub n hn))
        · obtain ⟨hb, hn⟩ := not_or.1 fun h => hn (List.mem_cons.2 h)
          exact (hleft n hn hn').trans (hkeep n hb)
        · exact (hblocked ((hcongr nm hnm).1.2 hb)).trans (hkeep nm (hne nm hnm))
        · exact (hreplaced fun h => hb ((hcongr nm hnm).1.1 h)).trans (hothers nm hnm)

/-- Draining stops at a first file, or at none. -/
theorem stopsAt_or (j : Journal) : ∀ names : List String,
    (∀ name ∈ names, ¬Stops uuid owner host client w j name) ∨
      ∃ before name, StopsAt uuid owner host client w j names before name
  | [] => .inl (by simp)
  | name :: rest => by
    by_cases hstop : Stops uuid owner host client w j name
    · exact .inr ⟨[], name, rest, rfl, by simp, hstop⟩
    · rcases stopsAt_or j rest with hnone | ⟨before, nm, behind, hsplit, hbefore, hnm⟩
      · exact .inl (List.forall_mem_cons.2 ⟨hstop, hnone⟩)
      · exact .inr ⟨name :: before, nm, behind, by rw [hsplit, List.cons_append],
          List.forall_mem_cons.2 ⟨hstop, hbefore⟩, hnm⟩

/-- The files a drain goes through. -/
def names (j : Journal) : List String := j.files.keys.filter isJson

theorem names_nodup (j : Journal) : j.names.Nodup := (OrdMap.keys_nodup _).filter _

theorem hosts_of_not_mem_names {j : Journal} {name : String} (hjson : isJson name = true)
    (h : name ∉ j.names) : j.hosts name = [] := by
  have hnone : j.files.find? name = none := OrdMap.find?_eq_none.2 fun v hv =>
    h (List.mem_filter.2 ⟨List.mem_map.2 ⟨_, hv, rfl⟩, hjson⟩)
  rw [hosts, hnone]

theorem entriesFor_of_emptied {j j' : Journal} {name : String}
    (h : j'.hosts name = j.entriesOfOthers host name) : j'.entriesFor host name = [] := by
  rw [entriesFor, h, entriesOfOthers, List.filter_filter, List.filter_eq_nil_iff]
  simp

theorem entriesOfOthers_of_emptied {j j' : Journal} {name : String}
    (h : j'.hosts name = j.entriesOfOthers host name) :
    j'.entriesOfOthers host name = j.entriesOfOthers host name := by
  rw [entriesOfOthers, h, entriesOfOthers, List.filter_filter]
  simp

end Journal

open Journal

/-- A drain fails and keeps the entries of its host, or leaves none of them; the entries of others
stay; and nothing is sent but what settles an entry of the host. -/
def DrainSettles (uuid : String → Option String) (s : Connections) (j : Journal)
    (host : HostTarget) (client : Client) (w : World) : Prop :=
  let (result, _, j', _, w') := s.drain uuid j host client w.begin
  (∀ e, result = .error e → ∀ name, j'.entriesFor host name = j.entriesFor host name) ∧
    (∀ adopted, result = .ok adopted → ∀ name, isJson name = true → j'.entriesFor host name = []) ∧
    (∀ name, j'.entriesOfOthers host name = j.entriesOfOthers host name) ∧
    ∀ h request, w'.Sent h request → h = host.id ∧ ∃ name ∈ j.names, ∃ intent,
      j.read uuid name = .ok intent ∧ ∃ item ∈ intent.hosts, sameTarget item.host host = true ∧
        request = requestFor s.owner host intent item

/-- Nothing of the host is settled before a drain fails. -/
def FailsInTime (uuid : String → Option String) (s : Connections) (j : Journal)
    (host : HostTarget) (client : Client) (w : World) : Prop :=
  j.lockError = none → j.names.length ≤ 128 →
    ∀ before name, StopsAt uuid s.owner host client w j j.names before name →
      (∀ n ∈ before, j.entriesFor host n = []) ∧
        (¬Blocks uuid s.owner host client w j name → j.entriesFor host name = [])

theorem drainSettles_of_refused {s : Connections} {j : Journal} {host : HostTarget}
    {client : Client} {w : World} {e : String}
    (h : j.drainDirectory uuid s.owner host client w.begin = (.error e, j, client, w.begin)) :
    DrainSettles uuid s j host client w := by
  unfold DrainSettles Connections.drain
  rw [h]
  exact ⟨fun _ _ _ => rfl, fun _ ha => by simp at ha, fun _ => rfl,
    fun h request hs => by simp [World.Sent, World.begin] at hs⟩

/-- What is left in the files once they were drained, whatever came of it. -/
theorem Journal.Drained.others_kept {owner : String} {host : HostTarget} {client : Client}
    {w : World} {names : List String} {j : Journal}
    {out : Except String (List Resource) × Journal × Client × World}
    (h : Drained uuid owner host names j client w out) (name : String) :
    out.2.1.entriesOfOthers host name = j.entriesOfOthers host name := by
  have hsame : out.2.1.hosts name = j.hosts name →
      out.2.1.entriesOfOthers host name = j.entriesOfOthers host name := fun hh => by
    rw [entriesOfOthers, hh, entriesOfOthers]
  rcases @stopsAt_or uuid owner host client w j names with hnone | ⟨before, nm, hstop⟩
  · by_cases hmem : name ∈ names
    · exact entriesOfOthers_of_emptied ((h.passed hnone).2 name hmem)
    · exact hsame (hosts_congr (h.others name hmem))
  · obtain ⟨-, hdone, hleft, hblocked, hreplaced⟩ := h.stopped before nm hstop
    by_cases hbefore : name ∈ before
    · exact entriesOfOthers_of_emptied (hdone name hbefore)
    by_cases hnm : name = nm
    · subst hnm
      by_cases hb : Blocks uuid owner host client w j name
      · exact hsame (hblocked hb)
      · exact entriesOfOthers_of_emptied (hreplaced hb)
    · exact hsame (hleft name hbefore hnm)

theorem drainSettles_iff (s : Connections) (j : Journal) (host : HostTarget) (client : Client)
    (w : World) : DrainSettles uuid s j host client w ↔ FailsInTime uuid s j host client w := by
  rcases hlock : j.lockError with _ | e
  swap
  · refine iff_of_true (drainSettles_of_refused (e := e) ?_) fun h => by simp [hlock] at h
    rw [drainDirectory, hlock]
  by_cases hmany : 128 < j.names.length
  · refine iff_of_true (drainSettles_of_refused (e := "待关闭记录数量超过限制") ?_)
      fun _ h => absurd h (not_le.2 hmany)
    rw [drainDirectory, hlock]
    exact if_pos hmany
  have hdir : j.drainDirectory uuid s.owner host client w.begin =
      drainFiles uuid s.owner host j.names j client w.begin := by
    rw [drainDirectory, hlock]
    exact if_neg hmany
  have hd := @drainFiles_drained uuid s.owner host j.names j client w.begin j.names_nodup
  have hothers := hd.others_kept
  unfold DrainSettles Connections.drain
  rw [hdir]
  generalize drainFiles uuid s.owner host j.names j client w.begin = x at hd hothers
  obtain ⟨result, j', client', w'⟩ := x
  have hsent : ∀ h request, w'.Sent h request → h = host.id ∧ ∃ name ∈ j.names, ∃ intent,
      j.read uuid name = .ok intent ∧ ∃ item ∈ intent.hosts, sameTarget item.host host = true ∧
        request = requestFor s.owner host intent item := fun h request hs =>
    (hd.sent h request hs).resolve_left fun h => by simp [World.Sent, World.begin] at h
  rcases @stopsAt_or uuid s.owner host client w j j.names with hnone | ⟨before, name, hstop⟩
  · obtain ⟨⟨adopted, rfl : result = _⟩, hdone⟩ := hd.passed hnone
    refine iff_of_true ⟨fun e he => by simp at he, fun _ _ name hjson => ?_, hothers, hsent⟩ ?_
    · by_cases hmem : name ∈ j.names
      · exact entriesFor_of_emptied (hdone name hmem)
      · rw [entriesFor, hosts_congr (hd.others name hmem), hosts_of_not_mem_names hjson hmem]
        rfl
    · rintro - - before name ⟨behind, hsplit, -, hstop⟩
      exact absurd hstop (hnone name (by simp [hsplit]))
  · obtain ⟨⟨e, rfl : result = _⟩, hdone, hleft, hblocked, hreplaced⟩ := hd.stopped before name hstop
    constructor
    · rintro ⟨hkept, -⟩ - - before' name' hstop'
      obtain ⟨-, hdone', -, -, hreplaced'⟩ := hd.stopped before' name' hstop'
      refine ⟨fun n hn => ?_, fun hb => ?_⟩
      · rw [← hkept e rfl n]
        exact entriesFor_of_emptied (hdone' n hn)
      · rw [← hkept e rfl name']
        exact entriesFor_of_emptied (hreplaced' hb)
    · intro hcond
      obtain ⟨hbefore, hname⟩ := hcond hlock (not_lt.1 hmany) before name hstop
      refine ⟨fun _ _ n => ?_, fun _ ha => by simp at ha, hothers, hsent⟩
      by_cases hn : n ∈ before
      · rw [hbefore n hn]
        exact entriesFor_of_emptied (hdone n hn)
      by_cases hnm : n = name
      · subst hnm
        by_cases hb : Blocks uuid s.owner host client w j n
        · rw [entriesFor, hblocked hb, entriesFor]
        · rw [hname hb]
          exact entriesFor_of_emptied (hreplaced hb)
      · rw [entriesFor, hleft n hn hnm, entriesFor]

/-- The journal: what `persist` stored is read again exactly within the reader's limits, and a drain
keeps the entries of its host when it fails exactly when it fails before it settled any of them. -/
theorem journal_law (uuid : String → Option String) (s : Connections)
    (howner : uuid s.owner = some s.owner) (j : Journal) (host : HostTarget) (client : Client)
    (w : World) :
    (∀ j', s.persist uuid j = (.ok (), j') →
        ((j'.files.find? (path s.owner) = none ∨
            ∃ i, s.intent = .ok i ∧ j'.read uuid (path s.owner) = .ok i) ↔ s.WithinLimits)) ∧
      (DrainSettles uuid s j host client w ↔ FailsInTime uuid s j host client w) :=
  ⟨fun _ h => Connections.persist_read howner h, drainSettles_iff s j host client w⟩

theorem journal_law_two :
    (∀ j', (manySessions 2).persist some {} = (.ok (), j') →
        ((j'.files.find? (path (manySessions 2).owner) = none ∨ ∃ i,
          (manySessions 2).intent = .ok i ∧ j'.read some (path (manySessions 2).owner) = .ok i) ↔
            (manySessions 2).WithinLimits)) ∧
      (DrainSettles some (manySessions 2) {} { id := "local", name := "本机" }
        { serverId := "server" } allReachable ↔
          FailsInTime some (manySessions 2) {} { id := "local", name := "本机" }
            { serverId := "server" } allReachable) :=
  journal_law some (manySessions 2) rfl {} { id := "local", name := "本机" } { serverId := "server" }
    allReachable

theorem Resource.size_toJson_le (r : Resource) : r.toJson.size ≤ 6 * r.id.utf8ByteSize + 40 := by
  cases r with
  | agentSession id =>
    have hid := Json.size_str_le id
    have hq : (Json.quote "kind").utf8ByteSize = 6 := rfl
    have hq' : (Json.quote "id").utf8ByteSize = 4 := rfl
    have hv : (Json.str "agent_session").size = 15 := rfl
    simp only [toJson, Json.size_obj_cons, Json.fieldSize, hq, hq', hv, List.map_cons, List.map_nil,
      List.sum_cons, List.sum_nil, Resource.id]
    omega
  | terminal id =>
    have hid := Json.size_str_le id
    have hq : (Json.quote "kind").utf8ByteSize = 6 := rfl
    have hq' : (Json.quote "id").utf8ByteSize = 4 := rfl
    have hv : (Json.str "terminal").size = 10 := rfl
    simp only [toJson, Json.size_obj_cons, Json.fieldSize, hq, hq', hv, List.map_cons, List.map_nil,
      List.sum_cons, List.sum_nil, Resource.id]
    omega

theorem grouped_manySessions {n : ℕ} (h : 0 < n) :
    (manySessions n).grouped.entries =
      [(toLex ("local", "server"), (manySessions n).claimedOn "local" "server")] := by
  have hne : (manySessions n).claimedOn "local" "server" ≠ [] := by
    rw [claimedOn_manySessions]
    simp; omega
  have hmem : (toLex ("local", "server"), (manySessions n).claimedOn "local" "server") ∈
      (manySessions n).grouped.entries := OrdMap.mem_collect.2 ⟨rfl, hne⟩
  have hall : ∀ p ∈ (manySessions n).grouped.entries,
      p = (toLex ("local", "server"), (manySessions n).claimedOn "local" "server") := by
    rintro ⟨key, values⟩ hp
    obtain ⟨rfl, hvalues⟩ := OrdMap.mem_collect.1 hp
    obtain ⟨v, hv⟩ := List.exists_mem_of_ne_nil _ hvalues
    have hkey := OrdMap.mem_under.1 hv
    simp only [manySessions, openSessions, List.map_map, List.mem_map] at hkey
    obtain ⟨i, -, hi⟩ := hkey
    obtain rfl : toLex ("local", "server") = key := (Prod.mk.inj hi).1
    rfl
  have hsorted := (manySessions n).grouped.sorted
  generalize (manySessions n).grouped.entries = entries at hmem hall hsorted
  rcases entries with _ | ⟨p, _ | ⟨q, rest⟩⟩
  · simp at hmem
  · rw [hall p List.mem_cons_self]
  · have hlt := (List.pairwise_cons.1 hsorted).1 q List.mem_cons_self
    rw [hall p (by simp), hall q (by simp)] at hlt
    exact absurd hlt (lt_irrefl _)

/-- What a desktop with many sessions writes down. -/
def manyIntent (n : ℕ) : Intent where
  ownerId := "8c1f3a52-6d0e-4b7a-9f21-3e5d7c9b1a40"
  hosts := [⟨{ id := "local", name := "本机" }, "server", (manySessions n).claimedOn "local" "server"⟩]

theorem intent_manySessions {n : ℕ} (h : 0 < n) : (manySessions n).intent = .ok (manyIntent n) := by
  rw [Connections.intent, grouped_manySessions h]
  rfl

theorem size_manyIntent {n : ℕ} (h : n ≤ 129) : (manyIntent n).toJson.size ≤ 200000 := by
  have hsizes : ∀ x ∈ (((manySessions n).claimedOn "local" "server").map Resource.toJson).map
      fun v => v.size + 1, x ≤ 815 := by
    intro x hx
    simp only [claimedOn_manySessions, List.map_map, List.mem_map, List.mem_range,
      Function.comp_apply] at hx
    obtain ⟨i, hi, rfl⟩ := hx
    have hsize := Resource.size_toJson_le
      (.agentSession (String.ofList (List.replicate (i + 1) 's')))
    have hid : (String.ofList (List.replicate (i + 1) 's')).utf8ByteSize = i + 1 := by
      rw [← String.utf8Len_toList, String.toList_ofList]
      induction i + 1 with
      | zero => rfl
      | succ k ih => rw [List.replicate_succ, String.utf8Len_cons, ih]; rfl
    rw [Resource.id, hid] at hsize
    omega
  have hsum := List.sum_le_card_nsmul _ _ hsizes
  have harr := Json.size_arr_le (((manySessions n).claimedOn "local" "server").map Resource.toJson)
  have hlength : ((((manySessions n).claimedOn "local" "server").map Resource.toJson).map
      fun v => v.size + 1).length = n := by simp [claimedOn_manySessions]
  rw [hlength] at hsum
  have hmul : n • 815 ≤ 105135 := by
    have : n • 815 = n * 815 := rfl
    omega
  have howner : (Json.str "8c1f3a52-6d0e-4b7a-9f21-3e5d7c9b1a40").size = 38 := rfl
  have hhost : (HostTarget.toJson { id := "local", name := "本机" }).size ≤ 200 := by decide
  have hserver : (Json.str "server").size = 8 := rfl
  have hkeys : (Json.quote "owner_id").utf8ByteSize = 10 ∧ (Json.quote "hosts").utf8ByteSize = 7 ∧
      (Json.quote "host").utf8ByteSize = 6 ∧ (Json.quote "server_id").utf8ByteSize = 11 ∧
      (Json.quote "resources").utf8ByteSize = 11 := ⟨rfl, rfl, rfl, rfl, rfl⟩
  obtain ⟨hk₁, hk₂, hk₃, hk₄, hk₅⟩ := hkeys
  simp only [manyIntent, Intent.toJson, HostIntent.toJson, Json.size_obj_cons, Json.fieldSize,
    Json.size_arr_cons, List.map_cons, List.map_nil, List.sum_cons, List.sum_nil, howner, hserver,
    hk₁, hk₂, hk₃, hk₄, hk₅]
  omega

theorem write_new {j : Journal} {intent : Intent} {o : String}
    (ho : uuid intent.ownerId = some o) (hfind : j.files.find? (path o) = none)
    (hfault : j.faults (path o) = none) (hne : intent.hosts ≠ [])
    (hsize : ¬journalLimit < intent.toJson.size) : ∃ j', j.write uuid intent = (.ok (), j') := by
  unfold write
  simp only [ho, hfind]
  rw [if_neg hne, if_neg hsize, hfault]
  exact ⟨_, rfl⟩

/-- A quit with more sessions than the reader takes is written down all the same. -/
theorem manySessions_stored :
    ∃ j, (manySessions 129).persist some {} = (.ok (), j) := by
  have hsize : ¬journalLimit < (manyIntent 129).toJson.size := by
    have := @size_manyIntent 129 le_rfl
    unfold journalLimit
    omega
  unfold Connections.persist
  rw [intent_manySessions (by decide)]
  exact write_new rfl rfl rfl (List.cons_ne_nil _ _) hsize

def localTarget : HostTarget := { id := "local", name := "本机" }

/-- An entry of the local host in the first file of a journal, and a second file that is none. -/
def damagedJournal : Journal where
  files := (OrdMap.empty.insert (path "00000000-0000-4000-8000-000000000001")
    (.regular 300 (.ok ⟨"00000000-0000-4000-8000-000000000001",
      [⟨localTarget, "server", [.agentSession "s"]⟩]⟩))).insert
    (path "00000000-0000-4000-8000-000000000002") .special

/-- What was stored is not read again, and a drain that fails has dropped an entry of its host. -/
theorem journal_breaks :
    (∃ j, (manySessions 129).persist some {} = (.ok (), j) ∧
      ¬(j.files.find? (path (manySessions 129).owner) = none ∨ ∃ i,
        (manySessions 129).intent = .ok i ∧ j.read some (path (manySessions 129).owner) = .ok i)) ∧
    ¬DrainSettles some (manySessions 1) damagedJournal localTarget { serverId := "server" }
      allReachable := by
  constructor
  · obtain ⟨j, hj⟩ := manySessions_stored
    have hiff := @Connections.persist_read some (manySessions 129) {} j rfl hj
    have hlimits : ¬(manySessions 129).WithinLimits := fun h => by
      have := h.2 _ (by rw [grouped_manySessions (by decide)]; exact List.mem_cons_self)
      simp [claimedOn_manySessions] at this
    exact ⟨j, hj, fun h => hlimits (hiff.1 h)⟩
  · rintro ⟨hkept, -⟩
    have hgone := hkept "关闭记录必须为普通文件" rfl (path "00000000-0000-4000-8000-000000000001")
    revert hgone
    decide

end LatteWork
