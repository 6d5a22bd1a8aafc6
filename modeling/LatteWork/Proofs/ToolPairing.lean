import LatteWork.Proofs.TurnActivity

/-!
# What calls are waiting for

A state without a row ends the calls only when the loop comes to the next row, or to its end. Seen from
the events the calls change at once: at a call, at a result, at a request about one, at a user's message
and at a state in which nothing is pending. So what a call is waiting for can be told from the events
behind it.
-/

namespace LatteWork

open TranscriptScan (itemsFrom doing noted Doing)
open ActivityScan (scanOf ended)

namespace ActivityScan

/-- The loop without its rows. -/
def calls (scan : ActivityScan) : ActivityScan := { scan with rows := [], terminal := [] }

variable {scan scan' : ActivityScan}

theorem finish_calls (h : scan.calls = scan'.calls) : scan.finish.calls = scan'.finish.calls := by
  unfold calls at h ⊢
  simp only [ActivityScan.mk.injEq, true_and, and_true] at h
  obtain ⟨htools, hattached, hpending, hunfinished⟩ := h
  rw [finish_eq, finish_eq, htools, hattached, hunfinished]

theorem finish_finish (scan : ActivityScan) : scan.finish.finish = scan.finish := by
  rw [finish_eq, finish_eq]
  rfl

theorem take_calls (h : scan.calls = scan'.calls) (item : Item) :
    (scan.take item).calls = (scan'.take item).calls := by
  obtain ⟨rows, tools, attached, pending, unfinished, terminal⟩ := scan
  obtain ⟨rows', tools', attached', pending', unfinished', terminal'⟩ := scan'
  have hfinish := finish_calls h
  unfold calls at h
  simp only [ActivityScan.mk.injEq, true_and, and_true] at h
  obtain ⟨rfl, rfl, rfl, rfl⟩ := h
  unfold take
  cases item with
  | user key text atMs handoff hidden =>
    cases handoff
    · exact hfinish
    · rfl
  | assistant key text => rfl
  | event key value resolved answers decision =>
    dsimp only
    split
    · rfl
    · rename_i id content isError
      rw [result_eq, result_eq]
      unfold resulted withImages answered
      dsimp only
      cases if id = "" then none else pending.lookup id <;> split_ifs <;> rfl
    · have hasked : asked ⟨rows, tools, attached, pending, unfinished, terminal⟩ value =
          asked ⟨rows', tools, attached, pending, unfinished, terminal'⟩ value := by
        unfold asked
        split <;> rfl
      rw [hasked]
      cases asked ⟨rows', tools, attached, pending, unfinished, terminal'⟩ value <;> rfl

/-- What an event does to the calls, at once. -/
def feel (m : TranscriptMaps) (scan : ActivityScan) (e : Event) : ActivityScan :=
  let scan := if e.event.terminal then scan.finish else scan
  match doing m [] e with
  | .push item => scan.take item
  | _ => scan

theorem feel_calls (h : scan.calls = scan'.calls) (m : TranscriptMaps) (e : Event) :
    (feel m scan e).calls = (feel m scan' e).calls := by
  have hended : (if e.event.terminal then scan.finish else scan).calls =
      (if e.event.terminal then scan'.finish else scan').calls := by
    split_ifs
    · exact finish_calls h
    · exact h
  unfold feel
  cases doing m [] e with
  | push item => exact take_calls hended item
  | nothing => exact hended
  | say text => exact hended

/-- The loop with the states behind it noticed. -/
def eager (passed : List ℕ) (scan : ActivityScan) : ActivityScan :=
  if passed = [] then scan else scan.finish

theorem eager_finish (passed : List ℕ) (scan : ActivityScan) :
    (eager passed scan).finish = scan.finish := by
  unfold eager
  split_ifs
  · rfl
  · exact finish_finish scan

theorem step_calls {item : Item} {passed later : List ℕ} (hterm : scan.terminal = passed ++ later)
    (hpassed : ∀ stop ∈ passed, stop ≤ item.key) (hlater : ∀ stop ∈ later, item.key < stop) :
    (scan.step item).terminal = later ∧
      (scan.step item).calls = ((eager passed scan).take item).calls := by
  have hpass := pass_between hterm hpassed hlater
  unfold step
  rw [take_terminal, hpass]
  unfold eager
  split_ifs with hnone
  · subst hnone
    exact ⟨hterm, rfl⟩
  · exact ⟨rfl, @take_calls { scan.finish with terminal := later } scan.finish rfl item⟩

/-- The loop over items that are newest first. -/
def scanBack (stops : List ℕ) (items : List Item) : ActivityScan :=
  scanOf (items.reverse.filter Item.visible) stops

theorem scanBack_cons (stops : List ℕ) (item : Item) (items : List Item) :
    scanBack stops (item :: items) =
      if item.visible then (scanBack stops items).step item else scanBack stops items := by
  unfold scanBack scanOf
  rw [List.reverse_cons, List.filter_append, List.foldl_append]
  cases h : item.visible <;> simp [h]

theorem take_invisible {item : Item} (h : item.visible = false) (scan : ActivityScan) :
    (scan.take item).calls = scan.calls := by
  cases item with
  | event key value resolved answers decision =>
    cases value with
    | turnChanges changes => rfl
    | _ => cases h
  | _ => cases h

/-- The changes that are known of a request are changes. -/
def Recording (m : TranscriptMaps) : Prop :=
  ∀ requestId value, m.turnChanges.lookup requestId = some value → ∃ changes, value = .turnChanges changes

theorem recording_ofEvents (receipts : List ((String × String) × String × ℕ)) (events : List Event) :
    Recording (.ofEvents receipts events) := by
  intro requestId value h
  obtain ⟨e, -, hvalue⟩ := List.mem_filterMap.1 (List.mem_reverse.1 (Assoc.mem_of_lookup h))
  cases he : e.event with
  | turnChanges changes =>
    rw [he] at hvalue
    obtain ⟨-, rfl⟩ := Prod.mk.inj (Option.some.inj hvalue)
    exact ⟨changes, rfl⟩
  | _ =>
    rw [he] at hvalue
    cases hvalue

/-- Where changes were shown does not matter for the calls. -/
theorem feel_shown {m : TranscriptMaps} (hm : Recording m) (shown : List String) (scan : ActivityScan)
    (e : Event) :
    (feel m scan e).calls =
      (match doing m shown e with
        | .push item => (if e.event.terminal then scan.finish else scan).take item
        | _ => if e.event.terminal then scan.finish else scan).calls := by
  unfold feel doing
  cases e.event with
  | turnChanges changes =>
    have hvalue : ∃ value, (m.turnChanges.lookup changes.requestId).getD (.turnChanges changes) =
        .turnChanges value := by
      rcases hlook : m.turnChanges.lookup changes.requestId with _ | value
      · exact ⟨changes, rfl⟩
      · exact hm _ _ hlook
    obtain ⟨value, hvalue⟩ := hvalue
    dsimp only
    rw [if_neg List.not_mem_nil, hvalue]
    split_ifs <;> rfl
  | _ => rfl

/-- The calls behind the loop are those that the events made. -/
theorem scan_calls {m : TranscriptMaps} (hm : Recording m) {stops : List ℕ} :
    ∀ {events : List Event} {shown : List String} {items : List Item} {passed : List ℕ}
      {felt : ActivityScan}, events.Pairwise (·.seq < ·.seq) →
      (scanBack stops items).terminal = passed ++ stopsOf events →
      (∀ stop ∈ passed, ∀ e ∈ events, stop < e.seq) →
      (eager passed (scanBack stops items)).calls = felt.calls →
      (scanBack stops (itemsFrom m shown items events)).settled.calls = (events.foldl (feel m) felt).calls
  | [], shown, items, passed, felt, _, hterm, _, hcalls => by
    rw [stopsOf, List.filterMap_nil, List.append_nil] at hterm
    unfold settled
    rw [itemsFrom, List.foldl_nil, ← hcalls, hterm]
    unfold eager
    split_ifs <;> first | rfl | contradiction
  | e :: rest, shown, items, passed, felt, hlog, hterm, hpassed, hcalls => by
    obtain ⟨hfirst, hrest⟩ := List.pairwise_cons.1 hlog
    obtain ⟨own, hown, hkey⟩ : ∃ own, stopsOf (e :: rest) = own ++ stopsOf rest ∧
        ((own = [] ∧ e.event.terminal = false) ∨ (own = [e.seq] ∧ e.event.terminal = true)) := by
      cases ht : e.event.terminal
      · exact ⟨[], by simp [stopsOf, ht], .inl ⟨rfl, rfl⟩⟩
      · exact ⟨[e.seq], by simp [stopsOf, ht], .inr ⟨rfl, rfl⟩⟩
    have hall : ∀ stop ∈ passed ++ own, stop ≤ e.seq := by
      intro stop hstop
      rcases List.mem_append.1 hstop with hstop | hstop
      · exact (hpassed stop hstop e List.mem_cons_self).le
      · rcases hkey with ⟨rfl, -⟩ | ⟨rfl, -⟩
        · cases hstop
        · exact (List.mem_singleton.1 hstop).le
    have hlater : ∀ stop ∈ stopsOf rest, e.seq < stop := by
      intro stop hstop
      obtain ⟨f, hf, rfl, -⟩ := mem_stopsOf hstop
      exact hfirst f hf
    have hafter : ∀ stop ∈ passed ++ own, ∀ f ∈ rest, stop < f.seq := fun stop hstop f hf =>
      (hall stop hstop).trans_lt (hfirst f hf)
    have hended : (eager (passed ++ own) (scanBack stops items)).calls =
        (if e.event.terminal then felt.finish else felt).calls := by
      rcases hkey with ⟨rfl, ht⟩ | ⟨rfl, ht⟩
      · rw [List.append_nil, ht]
        exact hcalls
      · have hfinish := finish_calls hcalls
        rw [eager_finish] at hfinish
        rw [ht, eager, if_neg (by simp)]
        exact hfinish
    rw [hown, ← List.append_assoc] at hterm
    have hfeel := feel_shown hm shown felt e
    -- A row that is seen is one more step of the loop.
    have hpush : ∀ item, item.key = e.seq → item.visible = true →
        (feel m felt e).calls = ((if e.event.terminal then felt.finish else felt).take item).calls →
        (scanBack stops (itemsFrom m (noted shown e) (item :: items) rest)).settled.calls =
          (rest.foldl (feel m) (feel m felt e)).calls := by
      intro item hitem hvisible hfelt
      have hstep := @step_calls (scanBack stops items) item _ _ hterm (hitem ▸ hall) (hitem ▸ hlater)
      refine @scan_calls m hm stops rest _ _ [] _ hrest ?_ (fun _ h => by cases h) ?_
      · rw [scanBack_cons, if_pos hvisible]
        exact hstep.1
      · rw [scanBack_cons, if_pos hvisible, hfelt]
        exact hstep.2.trans (take_calls hended item)
    rw [itemsFrom, List.foldl_cons]
    cases hdoing : doing m shown e with
    | nothing =>
      rw [hdoing] at hfeel
      exact scan_calls hm hrest hterm hafter (hended.trans hfeel.symm)
    | push item =>
      rw [hdoing] at hfeel
      have hitem := TranscriptScan.doing_key hdoing
      cases hvisible : item.visible
      · refine @scan_calls m hm stops rest _ _ (passed ++ own) _ hrest ?_ hafter ?_
        · show (scanBack stops (item :: items)).terminal = _
          rw [scanBack_cons, hvisible]
          exact hterm
        · show (eager _ (scanBack stops (item :: items))).calls = _
          rw [scanBack_cons, hvisible, hfeel]
          exact hended.trans (take_invisible hvisible _).symm
      · exact hpush item hitem hvisible hfeel
    | say text =>
      rw [hdoing] at hfeel
      have hnew := hpush (.assistant e.seq text) rfl rfl hfeel
      rcases items with _ | ⟨i, below⟩
      · exact hnew
      · cases i with
        | user => exact hnew
        | event => exact hnew
        | assistant key said =>
          -- The row goes on, and nothing else of the loop looks at its text.
          have hgoes : ∀ words, scanBack stops (.assistant key words :: below) =
              ((scanBack stops below).pass key).push (.item (.assistant key words) none) := by
            intro words
            rw [scanBack_cons]
            rfl
          rw [hgoes said] at hterm hended
          refine @scan_calls m hm stops rest _ _ (passed ++ own) _ hrest ?_ hafter ?_
          · show (scanBack stops (.assistant key (said ++ text) :: below)).terminal = _
            rw [hgoes]
            exact hterm
          · show (eager _ (scanBack stops (.assistant key (said ++ text) :: below))).calls = _
            rw [hgoes, hfeel, ← hended]
            unfold eager
            split_ifs
            · rfl
            · exact finish_calls rfl

/-- The calls of a log are those that its events made. -/
theorem settled_calls {m : TranscriptMaps} (hm : Recording m) {log : List Event}
    (hlog : log.Pairwise (·.seq < ·.seq)) (before : List Event) :
    (scanOf (itemsOf m before log) (stopsOf log)).settled.calls = (log.foldl (feel m) {}).calls :=
  @scan_calls m hm (stopsOf log) log (recorded before) [] [] {} hlog rfl (fun _ h => by cases h) rfl

theorem getElem_ended : ∀ (indices : List ℕ) (tools : List ToolActivity) (i : ℕ),
    (ended indices tools)[i]? = tools[i]?.map fun tool =>
      if i ∈ indices ∧ tool.status = .pending then { tool with status := .unconfirmed } else tool
  | [], tools, i => by simp [ended]
  | j :: rest, tools, i => by
    have hrest := getElem_ended rest (tools.modify j fun tool =>
      if tool.status = .pending then { tool with status := .unconfirmed } else tool) i
    refine hrest.trans ?_
    rw [List.getElem?_modify]
    rcases tools[i]? with _ | tool
    · rfl
    · by_cases hij : j = i
      · subst hij
        by_cases hp : tool.status = .pending <;> simp [hp]
      · have hji : ¬i = j := fun h => hij h.symm
        simp [hij, hji]

end ActivityScan

/-! ### What is told from the events -/

/-- The call that a result or a request of this id is about, behind these events, the newest first. -/
def openCall : List Event → String → Option ℕ
  | [], _ => none
  | e :: before, id =>
    match e.event with
    | .tool call .. => if call = id then some e.seq else openCall before id
    | .toolResult call .. => if call = id then none else openCall before id
    | .user .. => none
    | .state status _ => if status.active then openCall before id else none
    | _ => openCall before id

/-- A result or a request of this id is about this call. -/
def Concerns (before : List Event) (id : String) (key : ℕ) : Prop :=
  id ≠ "" ∧ openCall before id = some key

instance (before : List Event) (id : String) (key : ℕ) : Decidable (Concerns before id key) :=
  inferInstanceAs (Decidable (_ ∧ _))

/-- A request lets its call go on. -/
def granted (m : TranscriptMaps) : EventKind → Bool
  | .approval requestId .. => m.resolved.lookup requestId = some true
  | .question requestId .. => (m.answered.lookup requestId).any Option.isSome
  | _ => false

/-- Whether a call is pending behind these events, the newest first. -/
def stillPending (m : TranscriptMaps) : List Event → ℕ → Bool
  | [], _ => false
  | e :: before, key =>
    match e.event with
    | .tool .. => e.seq = key || stillPending m before key
    | .toolResult id .. => stillPending m before key && !decide (Concerns before id key)
    | .approval _ (some id) .. | .question _ (some id) _ =>
      if Concerns before id key then granted m e.event else stillPending m before key
    | .user .. => false
    | .state status _ => status.active && stillPending m before key
    | _ => stillPending m before key

/-- A call among these events. -/
def Calls (before : List Event) (key : ℕ) : Prop :=
  ∃ e ∈ before, e.seq = key ∧ ∃ id name input, e.event = .tool id name input

theorem Calls.cons {before : List Event} {key : ℕ} (h : Calls before key) (e : Event) :
    Calls (e :: before) key := by
  obtain ⟨f, hf, hcall⟩ := h
  exact ⟨f, List.mem_cons_of_mem _ hf, hcall⟩

theorem openCall_calls : ∀ {before : List Event} {id : String} {key : ℕ},
    openCall before id = some key → Calls before key
  | [], _, _, h => by cases h
  | e :: before, id, key, h => by
    have hrest : openCall before id = some key → Calls (e :: before) key := fun hopen =>
      (openCall_calls hopen).cons e
    unfold openCall at h
    split at h
    · rename_i he
      split_ifs at h
      · exact ⟨e, List.mem_cons_self, Option.some.inj h, _, _, _, he⟩
      · exact hrest h
    · split_ifs at h
      exact hrest h
    · cases h
    · split_ifs at h
      exact hrest h
    · exact hrest h

/-- What is pending is a call. -/
theorem stillPending_calls {m : TranscriptMaps} : ∀ {before : List Event} {key : ℕ},
    stillPending m before key = true → Calls before key
  | [], _, h => by cases h
  | e :: before, key, h => by
    have hrest : stillPending m before key = true → Calls (e :: before) key := fun hpending =>
      (stillPending_calls hpending).cons e
    unfold stillPending at h
    split at h
    · rename_i he
      rcases Bool.or_eq_true_iff.1 h with h | h
      · exact ⟨e, List.mem_cons_self, of_decide_eq_true h, _, _, _, he⟩
      · exact hrest h
    · exact hrest (Bool.and_eq_true_iff.1 h).1
    · split_ifs at h with hc
      · exact (openCall_calls hc.2).cons e
      · exact hrest h
    · split_ifs at h with hc
      · exact (openCall_calls hc.2).cons e
      · exact hrest h
    · cases h
    · exact hrest (Bool.and_eq_true_iff.1 h).2
    · exact hrest h

namespace ActivityScan

/-- The calls and what they are told to wait for. -/
structure Paired (m : TranscriptMaps) (before : List Event) (scan : ActivityScan) : Prop where
  keys : (scan.tools.map (·.key)).Nodup
  known : ∀ tool ∈ scan.tools, ∃ e ∈ before, e.seq = tool.key
  found : ∀ id, id ≠ "" → ∀ i, scan.pending.lookup id = some i →
    ∃ tool, scan.tools[i]? = some tool ∧ openCall before id = some tool.key
  missed : ∀ id, id ≠ "" → scan.pending.lookup id = none → openCall before id = none
  ids : (scan.pending.map (·.1)).Nodup
  named : ∀ p ∈ scan.pending, p.1 ≠ ""
  distinct : (scan.pending.map (·.2)).Nodup
  waited : ∀ p ∈ scan.pending, p.2 ∈ scan.unfinished
  status : ∀ (i : ℕ) (tool : ToolActivity), scan.tools[i]? = some tool →
    (tool.status = .pending ↔ stillPending m before tool.key = true)
  unfinished : ∀ (i : ℕ) (tool : ToolActivity), scan.tools[i]? = some tool → tool.status = .pending →
    i ∈ scan.unfinished

variable {m : TranscriptMaps} {before : List Event} {scan scan' : ActivityScan} {e : Event}

theorem Paired.of_fields (h : Paired m before scan) (htools : scan'.tools = scan.tools)
    (hpending : scan'.pending = scan.pending) (hunfinished : scan'.unfinished = scan.unfinished) :
    Paired m before scan' := by
  obtain ⟨rows, tools, attached, pending, unfinished, terminal⟩ := scan
  obtain ⟨rows', tools', attached', pending', unfinished', terminal'⟩ := scan'
  subst htools hpending hunfinished
  exact ⟨h.keys, h.known, h.found, h.missed, h.ids, h.named, h.distinct, h.waited, h.status, h.unfinished⟩

theorem Paired.of_calls (h : Paired m before scan) (hcalls : scan'.calls = scan.calls) :
    Paired m before scan' := by
  unfold calls at hcalls
  simp only [ActivityScan.mk.injEq, true_and, and_true] at hcalls
  exact h.of_fields hcalls.1 hcalls.2.2.1 hcalls.2.2.2

theorem known_cons (h : ∀ tool ∈ scan.tools, ∃ f ∈ before, f.seq = tool.key) :
    ∀ tool ∈ scan.tools, ∃ f ∈ e :: before, f.seq = tool.key := by
  intro tool htool
  obtain ⟨f, hf, hkey⟩ := h tool htool
  exact ⟨f, List.mem_cons_of_mem _ hf, hkey⟩

theorem known_keys {tools : List ToolActivity} (h : ∀ tool ∈ scan.tools, ∃ f ∈ before, f.seq = tool.key)
    (hkeys : tools.map (·.key) = scan.tools.map (·.key)) :
    ∀ tool ∈ tools, ∃ f ∈ e :: before, f.seq = tool.key := by
  intro tool htool
  have hkey : tool.key ∈ scan.tools.map (·.key) := hkeys ▸ List.mem_map_of_mem htool
  obtain ⟨old, hold, hkey⟩ := List.mem_map.1 hkey
  obtain ⟨f, hf, hseq⟩ := h old hold
  exact ⟨f, List.mem_cons_of_mem _ hf, hseq.trans hkey⟩

/-- An event that is about no call. -/
theorem Paired.same (h : Paired m before scan) (hopen : ∀ id, openCall (e :: before) id = openCall before id)
    (hpending : ∀ key, stillPending m (e :: before) key = stillPending m before key) :
    Paired m (e :: before) scan where
  keys := h.keys
  known := known_cons h.known
  found := fun id hid i hi => by
    obtain ⟨tool, htool, hkey⟩ := h.found id hid i hi
    exact ⟨tool, htool, (hopen id).trans hkey⟩
  missed := fun id hid hi => (hopen id).trans (h.missed id hid hi)
  ids := h.ids
  named := h.named
  distinct := h.distinct
  waited := h.waited
  status := fun i tool htool => by rw [hpending, h.status i tool htool]
  unfinished := h.unfinished

theorem getElem_modify {tools : List ToolActivity} {f : ToolActivity → ToolActivity} {index i : ℕ}
    {tool : ToolActivity} (h : (tools.modify index f)[i]? = some tool) :
    ∃ old, tools[i]? = some old ∧ tool = if index = i then f old else old := by
  rw [List.getElem?_modify, Option.map_eq_map] at h
  obtain ⟨old, hold, rfl⟩ := Option.map_eq_some_iff.1 h
  exact ⟨old, hold, rfl⟩

theorem map_modify {β : Type} {g : ToolActivity → β} {f : ToolActivity → ToolActivity}
    (hf : ∀ tool, g (f tool) = g tool) (index : ℕ) (tools : List ToolActivity) :
    (tools.modify index f).map g = tools.map g := by
  refine List.ext_getElem? fun j => ?_
  rw [List.getElem?_map, List.getElem?_map, List.getElem?_modify, Option.map_eq_map, Option.map_map]
  refine congrArg (fun g => Option.map g tools[j]?) (funext fun tool => ?_)
  simp only [Function.comp_apply]
  split_ifs
  · exact hf tool
  · rfl

theorem map_ended {β : Type} {g : ToolActivity → β} (hg : ∀ tool status, g { tool with status } = g tool) :
    ∀ (indices : List ℕ) (tools : List ToolActivity), (ended indices tools).map g = tools.map g
  | [], _ => rfl
  | i :: rest, tools => by
    refine (map_ended hg rest _).trans (map_modify (fun tool => ?_) i tools)
    split_ifs
    · exact hg tool _
    · rfl

/-- Behind the end no call is pending. -/
theorem Paired.none_pending (h : Paired m before scan) {i : ℕ} {tool : ToolActivity}
    (htool : scan.finish.tools[i]? = some tool) : tool.status ≠ .pending := by
  rw [finish_eq] at htool
  dsimp only at htool
  rw [getElem_ended] at htool
  obtain ⟨old, hold, rfl⟩ := Option.map_eq_some_iff.1 htool
  split_ifs with hp
  · simp
  · exact fun hpending => hp ⟨h.unfinished i old hold hpending, hpending⟩

/-- An event behind which nothing is waited for. -/
theorem Paired.finish (h : Paired m before scan) (hopen : ∀ id, openCall (e :: before) id = none)
    (hpending : ∀ key, stillPending m (e :: before) key = false) :
    Paired m (e :: before) scan.finish := by
  have hnone : ∀ (i : ℕ) (tool : ToolActivity), (ended scan.unfinished scan.tools)[i]? = some tool →
      tool.status ≠ .pending := fun i tool htool => h.none_pending (i := i) (by rwa [finish_eq])
  rw [finish_eq]
  refine ⟨?_, ?_, fun id _ i hi => (by cases hi), fun id _ _ => hopen id, List.nodup_nil,
    fun p hp => (by cases hp), List.nodup_nil, fun p hp => (by cases hp), fun i tool htool => ?_, fun i tool htool hp => ?_⟩
  · rw [map_ended fun _ _ => rfl]
    exact h.keys
  · exact known_keys h.known (map_ended (fun _ _ => rfl) scan.unfinished scan.tools)
  · rw [hpending]
    simpa using hnone i tool htool
  · exact absurd hp (hnone i tool htool)

/-- The calls that are waited for were made. -/
theorem Paired.index (h : Paired m before scan) {p : String × ℕ} (hp : p ∈ scan.pending) :
    p.2 < scan.tools.length := by
  have hlook : scan.pending.lookup p.1 = some p.2 := (Assoc.lookup_eq_some h.ids).2 hp
  obtain ⟨tool, htool, -⟩ := h.found p.1 (h.named p hp) p.2 hlook
  exact (List.getElem?_eq_some_iff.1 htool).1

/-- A call that is pending is one that was made. -/
theorem Paired.fresh (h : Paired m before scan) (hnew : ∀ f ∈ before, f.seq ≠ e.seq) :
    e.seq ∉ scan.tools.map (·.key) := by
  intro hmem
  obtain ⟨tool, htool, hkey⟩ := List.mem_map.1 hmem
  obtain ⟨f, hf, hseq⟩ := h.known tool htool
  exact hnew f hf (hseq.trans hkey)

theorem keys_append (h : Paired m before scan) (hnew : ∀ f ∈ before, f.seq ≠ e.seq) {tool : ToolActivity}
    (hkey : tool.key = e.seq) : ((scan.tools ++ [tool]).map (·.key)).Nodup := by
  rw [List.map_append, List.nodup_append]
  refine ⟨h.keys, List.nodup_singleton _, ?_⟩
  rintro a ha b hb rfl
  have hseq : a = e.seq := (List.mem_singleton.1 hb).trans hkey
  exact h.fresh hnew (hseq ▸ ha)

theorem known_append (h : Paired m before scan) {tool : ToolActivity} (hkey : tool.key = e.seq) :
    ∀ t ∈ scan.tools ++ [tool], ∃ f ∈ e :: before, f.seq = t.key := by
  intro t ht
  rcases List.mem_append.1 ht with ht | ht
  · exact known_cons h.known t ht
  · obtain rfl := List.mem_singleton.1 ht
    exact ⟨e, List.mem_cons_self, hkey.symm⟩

theorem getElem_concat {tools : List ToolActivity} {tool t : ToolActivity} {i : ℕ}
    (h : (tools ++ [tool])[i]? = some t) : tools[i]? = some t ∨ (i = tools.length ∧ t = tool) := by
  rcases Nat.lt_or_ge i tools.length with hi | hi
  · rw [List.getElem?_append_left hi] at h
    exact .inl h
  · rw [List.getElem?_append_right hi] at h
    have hzero : i - tools.length < 1 := (List.getElem?_eq_some_iff.1 h).1
    have hlen : i = tools.length := by omega
    subst hlen
    rw [Nat.sub_self] at h
    exact .inr ⟨rfl, (Option.some.inj h).symm⟩

theorem Paired.start (h : Paired m before scan) (hnew : ∀ f ∈ before, f.seq ≠ e.seq) {id name : String}
    {input : Json} (he : e.event = .tool id name input) :
    Paired m (e :: before) (scan.start e.seq id name input) := by
  have hopen : ∀ other, openCall (e :: before) other = if id = other then some e.seq else openCall before other := by
    intro other
    rw [openCall, he]
  have hpending : ∀ key, stillPending m (e :: before) key = (decide (e.seq = key) || stillPending m before key) := by
    intro key
    rw [stillPending, he]
  have hold : ∀ tool ∈ scan.tools, e.seq ≠ tool.key := by
    intro tool htool heq
    exact h.fresh hnew (heq ▸ List.mem_map_of_mem htool)
  have hget : ∀ {i : ℕ} {tool : ToolActivity}, scan.tools[i]? = some tool →
      (scan.start e.seq id name input).tools[i]? = some tool := by
    intro i tool htool
    exact (List.getElem?_append_left (List.getElem?_eq_some_iff.1 htool).1).trans htool
  have hlast : (scan.start e.seq id name input).tools[scan.tools.length]? =
      some { key := e.seq, name, input := some input, status := .pending } := by
    show (scan.tools ++ [_])[scan.tools.length]? = _
    simp
  have hmap : (scan.start e.seq id name input).pending =
      if id = "" then scan.pending else Assoc.put id scan.tools.length scan.pending := rfl
  refine ⟨keys_append h hnew rfl, known_append h rfl, ?_, ?_, ?_, ?_, ?_, ?_, ?_, ?_⟩
  · intro other hother i hi
    rw [hmap] at hi
    rw [hopen]
    split_ifs at hi with hid
    · obtain ⟨tool, htool, hkey⟩ := h.found other hother i hi
      have hne : id ≠ other := fun heq => hother (heq ▸ hid)
      exact ⟨tool, hget htool, by rw [if_neg hne, hkey]⟩
    · rw [Assoc.lookup_put] at hi
      split_ifs at hi with heq
      · obtain rfl := Option.some.inj hi
        exact ⟨_, hlast, by rw [if_pos heq.symm]⟩
      · obtain ⟨tool, htool, hkey⟩ := h.found other hother i hi
        exact ⟨tool, hget htool, by rw [if_neg (Ne.symm heq), hkey]⟩
  · intro other hother hi
    rw [hmap] at hi
    rw [hopen]
    split_ifs at hi with hid
    · have hne : id ≠ other := fun heq => hother (heq ▸ hid)
      rw [if_neg hne]
      exact h.missed other hother hi
    · rw [Assoc.lookup_put] at hi
      split_ifs at hi with heq
      rw [if_neg (Ne.symm heq)]
      exact h.missed other hother hi
  · rw [hmap]
    split_ifs
    · exact h.ids
    · exact Assoc.nodup_put h.ids
  · rw [hmap]
    split_ifs with hid
    · exact h.named
    · intro p hp
      rcases Assoc.mem_put.1 hp with ⟨hp, -⟩ | rfl
      · exact h.named p hp
      · exact hid
  · rw [hmap]
    split_ifs
    · exact h.distinct
    · rw [Assoc.put, List.map_append, List.nodup_append]
      refine ⟨h.distinct.sublist (List.filter_sublist.map _), List.nodup_singleton _, ?_⟩
      rintro a ha b hb rfl
      obtain ⟨p, hp, hpa⟩ := List.mem_map.1 ha
      have hlt := h.index (Assoc.mem_drop.1 hp).1
      have hlen : a = scan.tools.length := List.mem_singleton.1 hb
      omega
  · have hwaited : (scan.start e.seq id name input).unfinished =
        scan.unfinished ++ [scan.tools.length] := rfl
    rw [hmap, hwaited]
    split_ifs
    · exact fun p hp => List.mem_append_left _ (h.waited p hp)
    · intro p hp
      rcases Assoc.mem_put.1 hp with ⟨hp, -⟩ | rfl
      · exact List.mem_append_left _ (h.waited p hp)
      · exact List.mem_append_right _ (List.mem_singleton_self _)
  · intro i tool htool
    rw [hpending]
    rcases getElem_concat htool with htool | ⟨-, rfl⟩
    · have hne := hold tool (List.mem_of_getElem? htool)
      rw [h.status i tool htool]
      simp [hne]
    · simp
  · intro i tool htool hp
    show i ∈ scan.unfinished ++ [scan.tools.length]
    rcases getElem_concat htool with htool | ⟨rfl, rfl⟩
    · exact List.mem_append_left _ (h.unfinished i tool htool hp)
    · exact List.mem_append_right _ (List.mem_singleton_self _)

theorem Paired.same_index (h : Paired m before scan) {i j : ℕ} {a b : ToolActivity}
    (ha : scan.tools[i]? = some a) (hb : scan.tools[j]? = some b) (hkey : a.key = b.key) : i = j := by
  have hi : (scan.tools.map (·.key))[i]? = some a.key := by rw [List.getElem?_map, ha]; rfl
  have hj : (scan.tools.map (·.key))[j]? = some a.key := by rw [List.getElem?_map, hb, hkey]; rfl
  exact (List.getElem?_inj (List.getElem?_eq_some_iff.1 hi).1 h.keys).1 (hi.trans hj.symm)

/-- A call with its result is not pending. -/
theorem given_status (content : Json) (isError : Bool) (tool : ToolActivity) :
    (given content isError tool).status ≠ .pending := by
  unfold given
  dsimp only
  split_ifs with hd
  · simp
  · simp
  · intro hp
    exact hd (by rw [hp]; simp)

/-- A result is given to its call, which is waited for no more. -/
theorem Paired.resulted (h : Paired m before scan) (hnew : ∀ f ∈ before, f.seq ≠ e.seq) {id : String}
    {content : Json} {isError : Bool} (he : e.event = .toolResult id content isError) :
    Paired m (e :: before) (scan.resulted e.seq id content isError) := by
  have hopen : ∀ other, openCall (e :: before) other = if id = other then none else openCall before other := by
    intro other
    rw [openCall, he]
  have hpending : ∀ key, stillPending m (e :: before) key =
      (stillPending m before key && !decide (Concerns before id key)) := by
    intro key
    rw [stillPending, he]
  have hmissed : ∀ other, other ≠ "" → (Assoc.drop id scan.pending).lookup other = none →
      openCall (e :: before) other = none := by
    intro other hother hi
    rw [hopen]
    split_ifs with heq
    · rfl
    · rw [Assoc.lookup_drop, if_neg (Ne.symm heq)] at hi
      exact h.missed other hother hi
  rcases hanswered : scan.answered id with _ | index
  · have hnone : ∀ key, ¬Concerns before id key := by
      rintro key ⟨hid, hkey⟩
      unfold answered at hanswered
      rw [if_neg hid] at hanswered
      rw [h.missed id hid hanswered] at hkey
      cases hkey
    have hlookup : ∀ other, other ≠ "" → scan.pending.lookup other =
        (Assoc.drop id scan.pending).lookup other := by
      intro other hother
      rw [Assoc.lookup_drop]
      split_ifs with heq
      · unfold answered at hanswered
        rw [if_neg (heq ▸ hother), ← heq] at hanswered
        exact hanswered
      · rfl
    have hcore : scan.resulted e.seq id content isError = scan.pushTool (stray e.seq content isError) := by
      unfold ActivityScan.resulted
      rw [hanswered]
    rw [hcore]
    refine ⟨keys_append h hnew rfl, known_append h rfl, ?_, ?_, h.ids, h.named, h.distinct, h.waited, ?_, ?_⟩
    · intro other hother i hi
      obtain ⟨tool, htool, hkey⟩ := h.found other hother i hi
      refine ⟨tool, (List.getElem?_append_left (List.getElem?_eq_some_iff.1 htool).1).trans htool, ?_⟩
      rw [hopen, if_neg, hkey]
      rintro rfl
      exact hnone tool.key ⟨hother, hkey⟩
    · intro other hother hi
      exact hmissed other hother ((hlookup other hother).symm.trans hi)
    · intro i tool htool
      rw [hpending]
      rcases getElem_concat htool with htool | ⟨-, rfl⟩
      · rw [h.status i tool htool]
        simp [hnone]
      · have hunknown : stillPending m before e.seq = false := by
          rw [Bool.eq_false_iff]
          intro hp
          obtain ⟨f, hf, hseq, -⟩ := stillPending_calls hp
          exact hnew f hf hseq
        have hstatus : (stray e.seq content isError).status ≠ .pending := by
          cases isError <;> simp [stray]
        have hkey : (stray e.seq content isError).key = e.seq := rfl
        rw [hkey, hunknown]
        simpa using hstatus
    · intro i tool htool hp
      rcases getElem_concat htool with htool | ⟨-, rfl⟩
      · exact h.unfinished i tool htool hp
      · cases isError <;> simp [stray] at hp
  · have hid : id ≠ "" := by
      rintro rfl
      simp [answered] at hanswered
    have hlook : scan.pending.lookup id = some index := by
      unfold answered at hanswered
      rwa [if_neg hid] at hanswered
    obtain ⟨call, hcall, hconcern⟩ := h.found id hid index hlook
    have hcore : scan.resulted e.seq id content isError =
        { scan.setTool index (given content isError) with
          pending := Assoc.drop id scan.pending
          unfinished := scan.unfinished.filter (· ≠ index) } := by
      unfold ActivityScan.resulted
      rw [hanswered]
    have hkeys : (scan.tools.modify index (given content isError)).map (·.key) = scan.tools.map (·.key) :=
      map_modify (f := given content isError) (fun _ => rfl) index scan.tools
    have hother : ∀ p ∈ scan.pending, p.1 ≠ id → p.2 ≠ index := by
      intro p hp hne heq
      have hmem := Assoc.mem_of_lookup hlook
      have hpair := List.inj_on_of_nodup_map h.distinct hp hmem heq
      exact hne (congrArg Prod.fst hpair)
    rw [hcore]
    refine ⟨hkeys ▸ h.keys, known_keys h.known hkeys, ?_, hmissed, Assoc.nodup_drop h.ids,
      fun p hp => h.named p (Assoc.mem_drop.1 hp).1, h.distinct.sublist (List.filter_sublist.map _), ?_, ?_, ?_⟩
    · intro other hne i hi
      dsimp only at hi
      rw [Assoc.lookup_drop] at hi
      split_ifs at hi with heq
      obtain ⟨tool, htool, hkey⟩ := h.found other hne i hi
      have hi' : ¬index = i := fun hsame =>
        hother _ (Assoc.mem_of_lookup hi) heq hsame.symm
      refine ⟨tool, ?_, by rw [hopen, if_neg (Ne.symm heq), hkey]⟩
      show (scan.tools.modify index _)[i]? = some tool
      rw [List.getElem?_modify, htool]
      simp [hi']
    · intro p hp
      obtain ⟨hp, hne⟩ := Assoc.mem_drop.1 hp
      exact List.mem_filter.2 ⟨h.waited p hp, by simpa using hother p hp hne⟩
    · intro i tool htool
      obtain ⟨old, hold, rfl⟩ := getElem_modify htool
      rw [hpending]
      split_ifs with hi
      · subst hi
        obtain rfl := Option.some.inj (hcall.symm.trans hold)
        have hkey : (given content isError call).key = call.key := rfl
        simp [hkey, given_status, Concerns, hid, hconcern]
      · have hne : ¬Concerns before id old.key := fun hc =>
          hi (h.same_index hcall hold (Option.some.inj (hconcern.symm.trans hc.2)))
        rw [h.status i old hold]
        simp [hne]
    · intro i tool htool hp
      obtain ⟨old, hold, rfl⟩ := getElem_modify htool
      split_ifs at hp with hi
      · exact absurd hp (given_status content isError old)
      · refine List.mem_filter.2 ⟨h.unfinished i old hold hp, ?_⟩
        simpa using Ne.symm hi

/-- What became of a request is told by what is known of it. -/
theorem Paired.asked (h : Paired m before scan) {id : String} {status : ToolStatus} {index : ℕ}
    (hid : id ≠ "") (hlook : scan.pending.lookup id = some index)
    (hopen : ∀ other, openCall (e :: before) other = openCall before other)
    (hpending : ∀ key, stillPending m (e :: before) key =
      if Concerns before id key then decide (status = .pending) else stillPending m before key) :
    Paired m (e :: before) (scan.setTool index fun tool => { tool with status }) := by
  obtain ⟨call, hcall, hconcern⟩ := h.found id hid index hlook
  have hkeys : (scan.tools.modify index fun tool => { tool with status }).map (·.key) =
      scan.tools.map (·.key) :=
    map_modify (f := fun tool => { tool with status }) (fun _ => rfl) index scan.tools
  refine ⟨hkeys ▸ h.keys, known_keys h.known hkeys, ?_, fun other hne hi => ?_, h.ids, h.named, h.distinct,
    h.waited, ?_, ?_⟩
  · intro other hne i hi
    obtain ⟨tool, htool, hkey⟩ := h.found other hne i hi
    have hget : (scan.tools.modify index fun tool => { tool with status })[i]? =
        some (if index = i then { tool with status } else tool) := by
      rw [List.getElem?_modify, htool]
      rfl
    refine ⟨_, hget, ?_⟩
    rw [hopen, hkey]
    split_ifs <;> rfl
  · rw [hopen]
    exact h.missed other hne hi
  · intro i tool htool
    obtain ⟨old, hold, rfl⟩ := getElem_modify htool
    rw [hpending]
    split_ifs with hi hc hc
    · simp
    · subst hi
      obtain rfl := Option.some.inj (hcall.symm.trans hold)
      exact absurd ⟨hid, hconcern⟩ hc
    · exact absurd (h.same_index hcall hold (Option.some.inj (hconcern.symm.trans hc.2))) hi
    · exact h.status i old hold
  · intro i tool htool hp
    obtain ⟨old, hold, rfl⟩ := getElem_modify htool
    split_ifs at hp with hi
    · subst hi
      exact h.waited _ (Assoc.mem_of_lookup hlook)
    · exact h.unfinished i old hold hp

/-- A request about a call, or about none. -/
theorem Paired.request (h : Paired m before scan) {about : Option String} {resolved : Option Bool}
    {answers : Option (Option (List QuestionAnswer))} {decision : Option ApprovalDecision}
    (hasked : ∀ s : ActivityScan, s.asked e.event = about.bind fun id => if id = "" then none else s.pending.lookup id)
    (htake : ∀ s : ActivityScan, s.take (.event e.seq e.event resolved answers decision) =
      match s.asked e.event with
      | some index =>
        { s.push (.item (.event e.seq e.event resolved answers decision) (some index)) with
          attached := index :: s.attached }.setTool index fun tool =>
            { tool with status := askedStatus e.event resolved answers decision }
      | none => s.push (.item (.event e.seq e.event resolved answers decision) none))
    (hstatus : askedStatus e.event resolved answers decision = .pending ↔ granted m e.event = true)
    (hopen : ∀ other, openCall (e :: before) other = openCall before other)
    (hpending : ∀ key, stillPending m (e :: before) key = match about with
      | some id => if Concerns before id key then granted m e.event else stillPending m before key
      | none => stillPending m before key) :
    Paired m (e :: before) (scan.take (.event e.seq e.event resolved answers decision)) := by
  rw [htake, hasked]
  rcases about with _ | id
  · exact (h.same hopen hpending).of_calls rfl
  · rw [Option.bind_some]
    split_ifs with hid
    · refine (h.same hopen fun key => (hpending key).trans (if_neg fun hc => hc.1 hid)).of_calls rfl
    · have hgranted : decide (askedStatus e.event resolved answers decision = .pending) = granted m e.event := by
        rw [Bool.eq_iff_iff, decide_eq_true_iff]
        exact hstatus
      rcases hlook : scan.pending.lookup id with _ | index
      · refine (h.same hopen fun key => (hpending key).trans (if_neg fun hc => ?_)).of_calls rfl
        have hnone := (h.missed id hid hlook).symm.trans hc.2
        cases hnone
      · have hchanged := @Paired.asked m before scan e h id (askedStatus e.event resolved answers decision) index
          hid hlook hopen fun key => by rw [hpending key, hgranted]
        exact hchanged.of_fields rfl rfl rfl

/-- One event keeps the calls and what is told of them together. -/
theorem Paired.feels (hm : Recording m) (h : Paired m before scan) (hnew : ∀ f ∈ before, f.seq ≠ e.seq) :
    Paired m (e :: before) (feel m scan e) := by
  have hsame : (∀ id, openCall (e :: before) id = openCall before id) →
      (∀ key, stillPending m (e :: before) key = stillPending m before key) →
      (feel m scan e).calls = scan.calls → Paired m (e :: before) (feel m scan e) :=
    fun hopen hpending hcalls => (h.same hopen hpending).of_calls hcalls
  have hfeel : feel m scan e = match doing m [] e with
      | .push item => (if e.event.terminal then scan.finish else scan).take item
      | _ => if e.event.terminal then scan.finish else scan := rfl
  cases he : e.event with
  | turnChanges changes =>
    have hvalue : ∃ value, (m.turnChanges.lookup changes.requestId).getD (.turnChanges changes) =
        .turnChanges value := by
      rcases hlook : m.turnChanges.lookup changes.requestId with _ | value
      · exact ⟨changes, rfl⟩
      · exact hm _ _ hlook
    obtain ⟨value, hvalue⟩ := hvalue
    refine hsame (fun id => by rw [openCall, he]) (fun key => by rw [stillPending, he]) ?_
    rw [hfeel, doing, he]
    dsimp only
    rw [if_neg List.not_mem_nil, hvalue]
    rfl
  | text text =>
    refine hsame (fun id => by rw [openCall, he]) (fun key => by rw [stillPending, he]) ?_
    rw [hfeel, doing, he]
    rfl
  | tool id name input =>
    have hstart : feel m scan e = scan.start e.seq id name input := by
      rw [hfeel, doing, he]
      rfl
    rw [hstart]
    exact h.start hnew he
  | toolResult id content isError =>
    have hresult : feel m scan e = scan.result e.seq id content isError := by
      rw [hfeel, doing, he]
      rfl
    rw [hresult]
    refine (h.resulted hnew he).of_calls ?_
    rw [result_eq, withImages]
    split_ifs <;> rfl
  | user text requestId =>
    refine (h.finish (fun id => by rw [openCall, he]) fun key => by rw [stillPending, he]).of_calls ?_
    rw [hfeel, doing, he]
    rfl
  | queuedMessageSent text requestId =>
    refine hsame (fun id => by rw [openCall, he]) (fun key => by rw [stillPending, he]) ?_
    have hterminal : (EventKind.queuedMessageSent text requestId).terminal = false := rfl
    rw [hfeel, doing, he, hterminal]
    simp only [Bool.false_eq_true, if_false]
    split_ifs <;> rfl
  | state status message =>
    have hterminal : e.event.terminal = !status.active := by rw [he]; rfl
    have hcalls : (feel m scan e).calls = (if e.event.terminal then scan.finish else scan).calls := by
      rw [hfeel, doing, he]
      dsimp only
      split_ifs <;> rfl
    cases hactive : status.active
    · refine (h.finish (fun id => ?_) fun key => ?_).of_calls ?_
      · rw [openCall, he]
        simp [hactive]
      · rw [stillPending, he]
        simp [hactive]
      · rw [hcalls, hterminal, hactive]
        rfl
    · refine hsame (fun id => ?_) (fun key => ?_) ?_
      · rw [openCall, he]
        simp [hactive]
      · rw [stillPending, he]
        simp [hactive]
      · rw [hcalls, hterminal, hactive]
        rfl
  | question requestId about questions =>
    have hrow : feel m scan e = scan.take (.event e.seq e.event
        (some ((m.answered.lookup requestId).isSome || m.ended e.seq)) (m.answered.lookup requestId) none) := by
      rw [hfeel, doing, he]
      rfl
    rw [hrow]
    refine @Paired.request m before scan e h about _ _ _ (fun s => ?_) (fun s => ?_) ?_ (fun other => ?_)
      fun key => ?_
    · rw [he]
      cases about <;> rfl
    · rw [he]
      rfl
    · rw [he]
      unfold askedStatus granted
      cases hlook : m.answered.lookup requestId with
      | none => cases m.ended e.seq <;> simp [hlook]
      | some answers => cases answers <;> simp [hlook]
    · rw [openCall, he]
    · rw [stillPending, he]
      cases about <;> rfl
  | approval requestId about tool input =>
    obtain ⟨outcome, hrow, hout⟩ : ∃ outcome, feel m scan e = scan.take (.event e.seq e.event
        (some (m.ended e.seq || (m.resolved.lookup requestId).isSome)) none outcome) ∧
        outcome = (m.resolved.lookup requestId).elim (if m.ended e.seq then some .expired else none)
          fun allowed => some (if allowed then .allowed else .denied) := by
      refine ⟨_, by rw [hfeel, doing, he]; rfl, ?_⟩
      rcases m.resolved.lookup requestId with _ | _ | _ <;> rfl
    rw [hrow, hout]
    refine @Paired.request m before scan e h about _ _ _ (fun s => ?_) (fun s => ?_) ?_ (fun other => ?_)
      fun key => ?_
    · rw [he]
      cases about <;> rfl
    · rw [he]
      rfl
    · rw [he]
      unfold askedStatus granted
      cases hlook : m.resolved.lookup requestId with
      | none => cases m.ended e.seq <;> simp [hlook]
      | some allowed => cases allowed <;> simp [hlook]
    · rw [openCall, he]
    · rw [stillPending, he]
      cases about <;> rfl
  | notice text =>
    refine hsame (fun id => by rw [openCall, he]) (fun key => by rw [stillPending, he]) ?_
    rw [hfeel, doing, he]
    rfl
  | _ =>
    refine hsame (fun id => by rw [openCall, he]) (fun key => by rw [stillPending, he]) ?_
    rw [hfeel, doing, he]
    rfl

theorem paired_start (m : TranscriptMaps) : Paired m [] {} where
  keys := List.nodup_nil
  known := fun tool h => by cases h
  found := fun id _ i h => by cases h
  missed := fun _ _ _ => rfl
  ids := List.nodup_nil
  named := fun p h => by cases h
  distinct := List.nodup_nil
  waited := fun p h => by cases h
  status := fun i tool h => by cases h
  unfinished := fun i tool h => by cases h

/-- The calls of a log are pending as its events tell. -/
theorem paired_log {m : TranscriptMaps} (hm : Recording m) {log : List Event}
    (hlog : log.Pairwise (·.seq < ·.seq)) : Paired m log.reverse (log.foldl (feel m) {}) := by
  induction log using List.reverseRecOn with
  | nil => exact paired_start m
  | append_singleton log e ih =>
    rw [List.pairwise_append] at hlog
    rw [List.foldl_append, List.reverse_append]
    refine (ih hlog.1).feels hm fun f hf => ?_
    exact (hlog.2.2 f (List.mem_reverse.1 hf) e (List.mem_singleton_self e)).ne

end ActivityScan

end LatteWork
