import LatteWork.Workbench.TurnTranscript

/-!
# The transcript, turn by turn

The items of a log are those of its turns one after another: a user's message has a row of its own, so
no row goes on behind it. What a turn's items are told by is the whole log, and which changes were shown
before.
-/

namespace LatteWork

/-! ### The groups -/

/-- Groups that begin at the user's messages, all but the first. -/
structure Cut (groups : List (List Event)) : Prop where
  nonempty : [] ∉ groups
  tails : ∀ group ∈ groups, ∀ e ∈ group.tail, e.event.isUser = false
  heads : ∀ group ∈ groups.tail, ∀ e ∈ group.head?, e.event.isUser = true

theorem Cut.tail {group : List Event} {groups : List (List Event)} (h : Cut (group :: groups)) :
    Cut groups where
  nonempty := fun hmem => h.nonempty (List.mem_cons_of_mem _ hmem)
  tails := fun g hg => h.tails g (List.mem_cons_of_mem _ hg)
  heads := fun g hg => h.heads g (List.mem_of_mem_tail hg)

theorem turnGroups_flatten (events : List Event) : (turnGroups events).flatten = events :=
  List.flatten_splitBy _ _

theorem turnGroups_cut (events : List Event) : Cut (turnGroups events) where
  nonempty := List.nil_notMem_splitBy _ _
  tails := by
    intro group hgroup e he
    have hchain := List.isChain_of_mem_splitBy hgroup
    rcases group with _ | ⟨first, rest⟩
    · cases he
    · clear hgroup
      induction rest generalizing first with
      | nil => cases he
      | cons next rest ih =>
        obtain ⟨hnext, hrest⟩ := List.isChain_cons_cons.1 hchain
        rcases List.mem_cons.1 he with rfl | he
        · simpa using hnext
        · exact ih next he hrest
  heads := by
    intro group hgroup e he
    have hchain := List.isChain_getLast_head_splitBy (fun _ e => !e.event.isUser) events
    change List.IsChain _ (turnGroups events) at hchain
    revert hchain hgroup
    generalize turnGroups events = groups
    intro hgroup hchain
    rcases groups with _ | ⟨first, rest⟩
    · cases hgroup
    · induction rest generalizing first with
      | nil => cases hgroup
      | cons next rest ih =>
        obtain ⟨⟨ha, hb, hnext⟩, hrest⟩ := List.isChain_cons_cons.1 hchain
        rcases List.mem_cons.1 hgroup with rfl | hgroup
        · rw [List.head?_eq_some_head hb] at he
          obtain rfl := Option.some.inj he
          simpa using hnext
        · exact ih next hgroup hrest

/-! ### What an event does -/

/-- The request whose changes are recorded. -/
def EventKind.recorded? : EventKind → Option String
  | turnChanges changes => some changes.requestId
  | _ => none

namespace TranscriptScan

/-- What an event does to the items. -/
inductive Doing where
  | nothing
  | push (item : Item)
  | say (text : String)

def Doing.on (seq : ℕ) : Doing → List Item → List Item
  | nothing, items => items
  | push item, items => item :: items
  | say text, .assistant key said :: rest => .assistant key (said ++ text) :: rest
  | say text, items => .assistant seq text :: items

/-- What an event does where some changes were shown. -/
def doing (m : TranscriptMaps) (shown : List String) (e : Event) : Doing :=
  match e.event with
  | .turnChanges changes =>
    if changes.requestId ∈ shown then .nothing
    else .push (.plain e.seq ((m.turnChanges.lookup changes.requestId).getD e.event))
  | .usage .. | .progress _ | .subagent _ | .approvalResolved .. | .questionResolved .. => .nothing
  | .queuedMessageSent text requestId =>
    if (m.receipts.lookup (e.sessionId, requestId)).any fun r => r.2 = e.seq then
      .push (.user e.seq text e.atMs true false)
    else .nothing
  | .user text requestId =>
    .push (.user e.seq text e.atMs false ((m.receipts.lookup (e.sessionId, requestId)).any fun r =>
      r.1 = text && decide (r.2 < e.seq)))
  | .text text => .say text
  | .question requestId .. =>
    .push (.event e.seq e.event (some ((m.answered.lookup requestId).isSome || m.ended e.seq))
      (m.answered.lookup requestId) none)
  | .approval requestId .. =>
    .push (.event e.seq e.event (some (m.ended e.seq || (m.resolved.lookup requestId).isSome)) none
      (match m.resolved.lookup requestId with
        | some true => some .allowed
        | some false => some .denied
        | none => if m.ended e.seq then some .expired else none))
  | .state _ message => if message.any (· ≠ "") then .push (.plain e.seq e.event) else .nothing
  | .tool .. | .toolResult .. | .notice _ => .push (.plain e.seq e.event)

/-- The requests whose changes were shown, behind an event. -/
def noted (shown : List String) (e : Event) : List String :=
  match e.event with
  | .turnChanges changes => if changes.requestId ∈ shown then shown else changes.requestId :: shown
  | _ => shown

theorem step_eq (m : TranscriptMaps) (scan : TranscriptScan) (e : Event) :
    scan.step m e = { items := (doing m scan.renderedChanges e).on e.seq scan.items
                      renderedChanges := noted scan.renderedChanges e } := by
  obtain ⟨items, shown⟩ := scan
  unfold step doing noted
  cases e.event with
  | turnChanges changes =>
    dsimp only
    split_ifs <;> rfl
  | queuedMessageSent text requestId =>
    dsimp only
    split_ifs <;> rfl
  | state status message =>
    dsimp only
    split_ifs <;> rfl
  | text text =>
    rcases items with _ | ⟨⟨⟩ | ⟨key, said⟩ | ⟨⟩, rest⟩ <;> rfl
  | _ => rfl

/-- The items that a part of a log adds, the newest first. -/
def itemsFrom (m : TranscriptMaps) : List String → List Item → List Event → List Item
  | _, items, [] => items
  | shown, items, e :: rest => itemsFrom m (noted shown e) ((doing m shown e).on e.seq items) rest

theorem foldl_items (m : TranscriptMaps) : ∀ (events : List Event) (scan : TranscriptScan),
    (events.foldl (step m) scan).items = itemsFrom m scan.renderedChanges scan.items events
  | [], _ => rfl
  | e :: rest, scan => by rw [List.foldl_cons, foldl_items m rest, step_eq, itemsFrom]

theorem doing_congr {m : TranscriptMaps} {shown shown' : List String} (e : Event)
    (h : ∀ x, x ∈ shown ↔ x ∈ shown') : doing m shown e = doing m shown' e := by
  unfold doing
  cases e.event with
  | turnChanges changes =>
    dsimp only
    rw [if_congr (h _) rfl rfl]
  | _ => rfl

theorem mem_noted {shown : List String} {e : Event} {x : String} :
    x ∈ noted shown e ↔ e.event.recorded? = some x ∨ x ∈ shown := by
  unfold noted EventKind.recorded?
  cases e.event with
  | turnChanges changes =>
    dsimp only
    split_ifs with hmem
    · constructor
      · exact fun hx => .inr hx
      · rintro (h | hx)
        · exact Option.some.inj h ▸ hmem
        · exact hx
    · simp [eq_comm]
  | _ => simp

theorem itemsFrom_congr {m : TranscriptMaps} : ∀ {events : List Event} {shown shown' : List String}
    {items : List Item}, (∀ x, x ∈ shown ↔ x ∈ shown') →
    itemsFrom m shown items events = itemsFrom m shown' items events
  | [], _, _, _, _ => rfl
  | e :: rest, shown, shown', items, h => by
    rw [itemsFrom, itemsFrom, doing_congr e h]
    exact itemsFrom_congr fun x => by rw [mem_noted, mem_noted, h]

/-- The rows below the newest do not matter. -/
theorem on_append {seq : ℕ} {d : Doing} {items base : List Item} (h : items ≠ [] ∨ base = []) :
    d.on seq (items ++ base) = d.on seq items ++ base := by
  rcases items with _ | ⟨i, rest⟩
  · obtain rfl := h.resolve_left fun hne => hne rfl
    simp
  · cases d with
    | nothing => rfl
    | push item => rfl
    | say text => cases i <;> rfl

theorem on_ne_nil {seq : ℕ} {d : Doing} {items : List Item} (h : items ≠ []) : d.on seq items ≠ [] := by
  rcases items with _ | ⟨i, rest⟩
  · exact absurd rfl h
  · cases d with
    | nothing => simp [Doing.on]
    | push item => simp [Doing.on]
    | say text => cases i <;> simp [Doing.on]

theorem itemsFrom_append {m : TranscriptMaps} : ∀ {events : List Event} {shown : List String}
    {items base : List Item}, items ≠ [] ∨ base = [] →
    itemsFrom m shown (items ++ base) events = itemsFrom m shown items events ++ base
  | [], _, _, _, _ => rfl
  | e :: rest, shown, items, base, h => by
    rw [itemsFrom, itemsFrom, on_append h]
    exact itemsFrom_append (h.imp_left on_ne_nil)

/-- A user's message begins anew. -/
theorem itemsFrom_user {m : TranscriptMaps} {e : Event} {rest : List Event} {shown : List String}
    {base : List Item} (h : e.event.isUser = true) :
    itemsFrom m shown base (e :: rest) = itemsFrom m shown [] (e :: rest) ++ base := by
  obtain ⟨item, hitem⟩ : ∃ item, doing m shown e = .push item := by
    unfold doing
    revert h
    cases e.event <;> intro h <;> first | exact ⟨_, rfl⟩ | cases h
  rw [itemsFrom, itemsFrom, hitem]
  exact @itemsFrom_append m rest _ [item] base (.inl (by simp))

theorem doing_key {m : TranscriptMaps} {shown : List String} {e : Event} {item : Item}
    (h : doing m shown e = .push item) : item.key = e.seq := by
  unfold doing at h
  split at h <;> try split_ifs at h
  all_goals first
    | obtain rfl := Doing.push.inj h
      rfl
    | cases h

/-- What holds of the items that the events make, and is kept where a text goes on, holds of all items. -/
theorem itemsFrom_all {m : TranscriptMaps} {P : Item → Prop}
    (hsaid : ∀ key said text, P (.assistant key said) → P (.assistant key (said ++ text))) :
    ∀ {events : List Event} {shown : List String} {items : List Item},
      (∀ front e rest, events = front ++ e :: rest → ∀ item,
        doing m (front.foldl noted shown) e = .push item → P item) →
      (∀ e ∈ events, ∀ text, P (.assistant e.seq text)) → (∀ item ∈ items, P item) →
      ∀ item ∈ itemsFrom m shown items events, P item
  | [], _, _, _, _, hitems => hitems
  | e :: rest, shown, items, hpush, hsay, hitems => by
    rw [itemsFrom]
    refine itemsFrom_all hsaid (fun front f more heq => hpush (e :: front) f more (by rw [heq]; rfl))
      (fun f hf => hsay f (List.mem_cons_of_mem _ hf)) ?_
    have hfirst := hpush [] e rest rfl
    rw [List.foldl_nil] at hfirst
    intro item hitem
    cases hdoing : doing m shown e with
    | nothing =>
      rw [hdoing] at hitem
      exact hitems item hitem
    | push made =>
      rw [hdoing] at hitem
      exact (List.mem_cons.1 hitem).elim (fun heq => heq ▸ hfirst made hdoing) (hitems item)
    | say text =>
      have hnew := hsay e List.mem_cons_self text
      rw [hdoing] at hitem
      rcases items with _ | ⟨i, below⟩
      · exact (List.mem_singleton.1 hitem) ▸ hnew
      · cases i with
        | assistant key said =>
          rcases List.mem_cons.1 hitem with rfl | hitem
          · exact hsaid key said text (hitems _ List.mem_cons_self)
          · exact hitems item (List.mem_cons_of_mem _ hitem)
        | user => exact (List.mem_cons.1 hitem).elim (fun heq => heq ▸ hnew) (hitems item)
        | event => exact (List.mem_cons.1 hitem).elim (fun heq => heq ▸ hnew) (hitems item)

/-- An item that is not the assistant's stays where it is. -/
theorem itemsFrom_stays {m : TranscriptMaps} {u : Item} (hu : ∀ key said, u ≠ .assistant key said)
    (base : List Item) : ∀ {events : List Event} {shown : List String} (new : List Item),
      ∃ more, itemsFrom m shown (new ++ u :: base) events = more ++ u :: base
  | [], _, new => ⟨new, rfl⟩
  | e :: rest, shown, new => by
    obtain ⟨next, hnext⟩ : ∃ next,
        (doing m shown e).on e.seq (new ++ u :: base) = next ++ u :: base := by
      cases doing m shown e with
      | nothing => exact ⟨new, rfl⟩
      | push item => exact ⟨item :: new, rfl⟩
      | say text =>
        rcases new with _ | ⟨i, more⟩
        · cases u with
          | assistant key said => exact absurd rfl (hu key said)
          | user => exact ⟨[_], rfl⟩
          | event => exact ⟨[_], rfl⟩
        · cases i with
          | assistant key said => exact ⟨_ :: more, rfl⟩
          | user => exact ⟨_ :: _ :: more, rfl⟩
          | event => exact ⟨_ :: _ :: more, rfl⟩
    rw [itemsFrom, hnext]
    exact itemsFrom_stays hu base next

end TranscriptScan

open TranscriptScan (itemsFrom doing noted)

/-- The requests whose changes a log records. -/
def recorded (log : List Event) : List String := log.filterMap (·.event.recorded?)

@[simp]
theorem recorded_append (log more : List Event) : recorded (log ++ more) = recorded log ++ recorded more :=
  List.filterMap_append

/-- The items of a part of a log, what the log before it shows being known. -/
def itemsOf (m : TranscriptMaps) (before part : List Event) : List Item :=
  (itemsFrom m (recorded before) [] part).reverse.filter Item.visible

/-- The items of each group. -/
def groupItems (m : TranscriptMaps) : List Event → List (List Event) → List (List Item)
  | _, [] => []
  | before, group :: rest => itemsOf m before group :: groupItems m (before ++ group) rest

theorem itemsFrom_concat {m : TranscriptMaps} : ∀ {events : List Event} {shown : List String}
    {items : List Item} (more : List Event), itemsFrom m shown items (events ++ more) =
      itemsFrom m (events.foldl noted shown) (itemsFrom m shown items events) more
  | [], _, _, _ => rfl
  | e :: rest, shown, items, more => by
    rw [List.cons_append, itemsFrom, itemsFrom, itemsFrom_concat more, List.foldl_cons]

theorem mem_foldl_noted : ∀ {events : List Event} {shown : List String} {x : String},
    x ∈ events.foldl noted shown ↔ x ∈ recorded events ∨ x ∈ shown
  | [], _, _ => by simp [recorded]
  | e :: rest, shown, x => by
    have hcons : x ∈ recorded (e :: rest) ↔ e.event.recorded? = some x ∨ x ∈ recorded rest := by
      simp [recorded]
    rw [List.foldl_cons, mem_foldl_noted, TranscriptScan.mem_noted, hcons]
    tauto

/-- What a group adds to the items before it. -/
theorem itemsFrom_group {m : TranscriptMaps} {group : List Event} {shown : List String}
    {base : List Item} (h : base = [] ∨ ∀ e ∈ group.head?, e.event.isUser = true) :
    itemsFrom m shown base group = itemsFrom m shown [] group ++ base := by
  rcases h with rfl | h
  · simp
  · rcases group with _ | ⟨e, rest⟩
    · rfl
    · exact TranscriptScan.itemsFrom_user (h e rfl)

theorem itemsFrom_groups {m : TranscriptMaps} : ∀ {groups : List (List Event)} {before : List Event}
    {shown : List String} {base : List Item}, Cut groups →
    (base = [] ∨ ∀ group ∈ groups.head?, ∀ e ∈ group.head?, e.event.isUser = true) →
    (∀ x, x ∈ shown ↔ x ∈ recorded before) →
    (itemsFrom m shown base groups.flatten).reverse.filter Item.visible =
      base.reverse.filter Item.visible ++ (groupItems m before groups).flatten
  | [], _, _, _, _, _, _ => by simp [itemsFrom, groupItems]
  | group :: rest, before, shown, base, hcut, hbase, hshown => by
    have hgroup : itemsFrom m shown base group = itemsFrom m (recorded before) [] group ++ base := by
      rw [itemsFrom_group (hbase.imp_right fun h => h group rfl)]
      rw [TranscriptScan.itemsFrom_congr hshown]
    have hheads : ∀ g ∈ rest.head?, ∀ e ∈ g.head?, e.event.isUser = true :=
      fun g hg => hcut.heads g (List.mem_of_mem_head? hg)
    have hafter : ∀ x, x ∈ group.foldl noted shown ↔ x ∈ recorded (before ++ group) := by
      intro x
      rw [mem_foldl_noted, hshown, recorded_append, List.mem_append, or_comm]
    rw [List.flatten_cons, itemsFrom_concat, itemsFrom_groups hcut.tail (.inr hheads) hafter, hgroup,
      groupItems, List.flatten_cons, itemsOf, List.reverse_append, List.filter_append, List.append_assoc]

/-- The transcript of a log is that of its groups. -/
theorem transcript_groups (events : List Event) (receipts : List ((String × String) × String × ℕ)) :
    transcript events receipts =
      (groupItems (.ofEvents receipts events) [] (turnGroups events)).flatten := by
  have hgroups := @itemsFrom_groups (.ofEvents receipts events) _ [] [] [] (turnGroups_cut events)
    (.inl rfl) fun x => by simp [recorded]
  rw [turnGroups_flatten] at hgroups
  rw [transcript, TranscriptScan.foldl_items]
  simpa using hgroups

/-- The transcript of one group alone. -/
theorem transcript_eq (events : List Event) (receipts : List ((String × String) × String × ℕ)) :
    transcript events receipts = itemsOf (.ofEvents receipts events) [] events := by
  rw [transcript, TranscriptScan.foldl_items]
  rfl

/-- An item has the number of an event. -/
theorem itemsOf_key {m : TranscriptMaps} {before part : List Event} :
    ∀ item ∈ itemsOf m before part, ∃ e ∈ part, e.seq = item.key := by
  intro item hitem
  refine TranscriptScan.itemsFrom_all (P := fun item => ∃ e ∈ part, e.seq = item.key)
    (fun _ _ _ h => h) ?_ (fun e he _ => ⟨e, he, rfl⟩) (fun _ h => by cases h) item
    (List.mem_reverse.1 (List.mem_filter.1 hitem).1)
  rintro front e rest rfl i hi
  exact ⟨e, by simp, (TranscriptScan.doing_key hi).symm⟩

/-- A group that begins with a user's message has its row first. -/
theorem itemsOf_user {m : TranscriptMaps} {before rest : List Event} {e : Event}
    (h : e.event.isUser = true) : ∃ text hidden more,
      itemsOf m before (e :: rest) = .user e.seq text e.atMs false hidden :: more := by
  obtain ⟨text, hidden, hdoing⟩ : ∃ text hidden,
      doing m (recorded before) e = .push (.user e.seq text e.atMs false hidden) := by
    unfold doing
    revert h
    cases e.event <;> intro h <;> first | exact ⟨_, _, rfl⟩ | cases h
  obtain ⟨more, hmore⟩ := @TranscriptScan.itemsFrom_stays m (.user e.seq text e.atMs false hidden)
    (fun _ _ => by simp) [] rest (noted (recorded before) e) []
  refine ⟨text, hidden, more.reverse.filter Item.visible, ?_⟩
  rw [itemsOf, itemsFrom, hdoing]
  show (itemsFrom m _ ([] ++ .user e.seq text e.atMs false hidden :: []) rest).reverse.filter _ = _
  rw [hmore, List.reverse_append, List.filter_append]
  rfl

end LatteWork
