import LatteWork.Proofs.TurnGroups

/-!
# The items of a turn, in the log and alone

A turn alone is told less than the log: what became of a request later, which changes were shown before
and which are the last of a request. Where the same is told, its items are the same; and where they are
the same, no more was told.
-/

namespace LatteWork

open TranscriptScan (itemsFrom doing noted Doing)

variable {m : TranscriptMaps} {before front rest : List Event} {e : Event} {item : Item}

/-! ### Which items there are -/

theorem doing_not_assistant {shown : List String} (h : doing m shown e = .push item) :
    ∀ key said, item ≠ .assistant key said := by
  unfold doing at h
  split at h <;> try split_ifs at h
  all_goals first
    | obtain rfl := Doing.push.inj h
      exact fun _ _ => nofun
    | cases h

/-- What an event shows is among the items. -/
theorem mem_itemsOf (h : doing m (front.foldl noted (recorded before)) e = .push item)
    (hvisible : item.visible = true) : item ∈ itemsOf m before (front ++ e :: rest) := by
  obtain ⟨more, hmore⟩ := @TranscriptScan.itemsFrom_stays m item (doing_not_assistant h)
    (itemsFrom m (recorded before) [] front) rest (noted (front.foldl noted (recorded before)) e) []
  have hmem : item ∈ itemsFrom m (recorded before) [] (front ++ e :: rest) := by
    rw [itemsFrom_concat, itemsFrom, h]
    show item ∈ itemsFrom m _ ([] ++ item :: _) rest
    rw [hmore]
    simp
  exact List.mem_filter.2 ⟨List.mem_reverse.2 hmem, hvisible⟩

/-- An item that is not the assistant's is what an event shows. -/
theorem exists_of_mem_itemsOf {part : List Event} (h : item ∈ itemsOf m before part)
    (hitem : ∀ key said, item ≠ .assistant key said) : ∃ front e rest, part = front ++ e :: rest ∧
      doing m (front.foldl noted (recorded before)) e = .push item := by
  have hmem := List.mem_reverse.1 (List.mem_filter.1 h).1
  have hall := TranscriptScan.itemsFrom_all
    (P := fun i => (∃ key said, i = .assistant key said) ∨ ∃ front e rest, part = front ++ e :: rest ∧
      doing m (front.foldl noted (recorded before)) e = .push i) ?_ ?_ ?_ ?_ item hmem
  · exact hall.resolve_left fun ⟨key, said, heq⟩ => hitem key said heq
  · exact fun key said text _ => .inl ⟨_, _, rfl⟩
  · exact fun front e rest heq i hi => .inr ⟨front, e, rest, heq, hi⟩
  · exact fun e _ text => .inl ⟨_, _, rfl⟩
  · exact fun i hi => by cases hi

/-- An item has the number of an event, or of an item before. -/
theorem itemsFrom_key {shown : List String} {items : List Item} {events : List Event} :
    ∀ i ∈ itemsFrom m shown items events,
      (∃ old ∈ items, old.key = i.key) ∨ ∃ e ∈ events, e.seq = i.key := by
  refine TranscriptScan.itemsFrom_all (fun _ _ _ h => h) ?_ (fun e he _ => .inr ⟨e, he, rfl⟩)
    fun i hi => .inl ⟨i, hi, rfl⟩
  rintro front e rest rfl i hi
  exact .inr ⟨e, by simp, (TranscriptScan.doing_key hi).symm⟩

/-- An event is told by its number. -/
theorem event_unique {log : List Event} (hlog : log.Pairwise (·.seq < ·.seq)) {a b : Event} (ha : a ∈ log)
    (hb : b ∈ log) (h : a.seq = b.seq) : a = b := by
  have hnodup : (log.map (·.seq)).Nodup := (List.pairwise_map.2 hlog).imp fun hlt => hlt.ne
  exact List.inj_on_of_nodup_map hnodup ha hb h

/-! ### Texts -/

def EventKind.isText : EventKind → Bool
  | text _ => true
  | _ => false

/-- The event adds nothing behind these: a text before it goes on. -/
def silent (receipts : List ((String × String) × String × ℕ)) (earlier : List Event) (e : Event) : Bool :=
  match e.event with
  | .turnChanges changes => changes.requestId ∈ recorded earlier
  | .usage .. | .progress _ | .subagent _ | .approvalResolved .. | .questionResolved .. => true
  | .queuedMessageSent _ requestId =>
    !(receipts.lookup (e.sessionId, requestId)).any fun r => r.2 = e.seq
  | .state _ message => !message.any (· ≠ "")
  | _ => false

/-- A text goes on behind these events of a turn, the newest first. -/
def talking (receipts : List ((String × String) × String × ℕ)) (before : List Event) : List Event → Bool
  | [] => false
  | e :: earlier =>
    if silent receipts (earlier ++ before) e then talking receipts before earlier else e.event.isText

def Item.isAssistant : Item → Bool
  | assistant .. => true
  | _ => false

theorem doing_silent {shown : List String} {earlier : List Event} (h : ∀ x, x ∈ shown ↔ x ∈ recorded earlier)
    (e : Event) : match doing m shown e with
      | .nothing => silent m.receipts earlier e = true
      | .push _ => silent m.receipts earlier e = false ∧ e.event.isText = false
      | .say _ => silent m.receipts earlier e = false ∧ e.event.isText = true := by
  unfold doing silent EventKind.isText
  cases e.event with
  | turnChanges changes =>
    dsimp only
    by_cases hmem : changes.requestId ∈ shown
    · simpa [hmem] using (h _).1 hmem
    · simpa [hmem] using fun hr => hmem ((h _).2 hr)
  | queuedMessageSent text requestId =>
    dsimp only
    cases hsent : (m.receipts.lookup (e.sessionId, requestId)).any fun r => decide (r.2 = e.seq) <;> simp
  | state status message =>
    dsimp only
    cases hsaid : message.any fun text => decide (text ≠ "") <;> simp
  | _ => simp

theorem mem_shown {x : String} : x ∈ front.foldl noted (recorded before) ↔
    x ∈ recorded (front.reverse ++ before) := by
  rw [mem_foldl_noted, recorded_append, List.mem_append]
  refine or_congr ?_ Iff.rfl
  simp [recorded]

/-- The newest row is the assistant's where a text goes on. -/
theorem head_talking (m : TranscriptMaps) (before front : List Event) :
    (itemsFrom m (recorded before) [] front).head?.any Item.isAssistant =
      talking m.receipts before front.reverse := by
  induction front using List.reverseRecOn with
  | nil => rfl
  | append_singleton front e ih =>
    have hdoing := @doing_silent m _ (front.reverse ++ before) (fun x => mem_shown) e
    rw [itemsFrom_concat, itemsFrom, itemsFrom, List.reverse_append]
    show _ = talking m.receipts before (e :: front.reverse)
    rw [talking, ← ih]
    cases hd : doing m (front.foldl noted (recorded before)) e with
    | nothing =>
      rw [hd] at hdoing
      rw [if_pos hdoing]
      rfl
    | push item =>
      rw [hd] at hdoing
      have hitem := doing_not_assistant hd
      rw [if_neg (by simp [hdoing.1]), hdoing.2]
      cases item with
      | assistant key said => exact absurd rfl (hitem key said)
      | user => rfl
      | event => rfl
    | say text =>
      rw [hd] at hdoing
      rw [if_neg (by simp [hdoing.1]), hdoing.2]
      rcases itemsFrom m (recorded before) [] front with _ | ⟨⟨⟩ | ⟨key, said⟩ | ⟨⟩, below⟩ <;> rfl

theorem assistant_stays {key : ℕ} : ∀ {events : List Event} {shown : List String} {items : List Item},
    (∃ said, .assistant key said ∈ items) → ∃ said, .assistant key said ∈ itemsFrom m shown items events
  | [], _, _, h => h
  | e :: rest, shown, items, ⟨said, h⟩ => by
    rw [itemsFrom]
    refine assistant_stays ?_
    cases doing m shown e with
    | nothing => exact ⟨said, h⟩
    | push item => exact ⟨said, List.mem_cons_of_mem _ h⟩
    | say text =>
      rcases items with _ | ⟨i, below⟩
      · cases h
      · cases i with
        | user => exact ⟨said, List.mem_cons_of_mem _ h⟩
        | event => exact ⟨said, List.mem_cons_of_mem _ h⟩
        | assistant first words =>
          rcases List.mem_cons.1 h with heq | h
          · obtain ⟨rfl, rfl⟩ := Item.assistant.inj heq
            exact ⟨_, List.mem_cons_self⟩
          · exact ⟨said, List.mem_cons_of_mem _ h⟩

/-- A text has a row of its own where none goes on. -/
theorem text_begins {text : String} (he : e.event = .text text)
    (hlog : (front ++ e :: rest).Pairwise (·.seq < ·.seq)) :
    (∃ said, .assistant e.seq said ∈ itemsOf m before (front ++ e :: rest)) ↔
      talking m.receipts before front.reverse = false := by
  have hmem : (∃ said, .assistant e.seq said ∈ itemsOf m before (front ++ e :: rest)) ↔
      ∃ said, .assistant e.seq said ∈ itemsFrom m (recorded before) [] (front ++ e :: rest) := by
    unfold itemsOf
    refine exists_congr fun said => ?_
    rw [List.mem_filter, List.mem_reverse]
    exact and_iff_left rfl
  have hdoing : doing m (front.foldl noted (recorded before)) e = .say text := by
    unfold doing
    rw [he]
  obtain ⟨hfront, hrest, hlt⟩ := List.pairwise_append.1 hlog
  have hbefore : ∀ i ∈ itemsFrom m (recorded before) [] front, i.key ≠ e.seq := by
    intro i hi
    rcases itemsFrom_key i hi with ⟨old, hold, -⟩ | ⟨f, hf, hkey⟩
    · cases hold
    · exact hkey ▸ (hlt f hf e List.mem_cons_self).ne
  rw [hmem, ← head_talking, itemsFrom_concat, itemsFrom, hdoing]
  revert hbefore
  generalize itemsFrom m (recorded before) [] front = items
  intro hbefore
  -- No event behind the text has its number.
  have hnone : ∀ {shown : List String} {next : List Item}, (∀ i ∈ next, i.key ≠ e.seq) →
      ¬∃ said, .assistant e.seq said ∈ itemsFrom m shown next rest := by
    rintro shown next hnext ⟨said, hsaid⟩
    rcases itemsFrom_key _ hsaid with ⟨old, hold, hkey⟩ | ⟨f, hf, hkey⟩
    · exact hnext old hold hkey
    · exact ((List.pairwise_cons.1 hrest).1 f hf).ne hkey.symm
  have hnew : ∀ {shown : List String} {below : List Item},
      ∃ said, .assistant e.seq said ∈ itemsFrom m shown (.assistant e.seq text :: below) rest :=
    assistant_stays ⟨text, List.mem_cons_self⟩
  rcases items with _ | ⟨i, below⟩
  · simpa [Doing.on] using hnew
  · cases i with
    | user => simpa [Doing.on, Item.isAssistant] using hnew
    | event => simpa [Doing.on, Item.isAssistant] using hnew
    | assistant key said =>
      have hkey := hbefore _ List.mem_cons_self
      have hgoes := @hnone (noted (front.foldl noted (recorded before)) e)
        (.assistant key (said ++ text) :: below) fun j hj => by
          rcases List.mem_cons.1 hj with rfl | hj
          · exact hkey
          · exact hbefore j (List.mem_cons_of_mem _ hj)
      simpa [Doing.on, Item.isAssistant] using hgoes

/-! ### What a turn is told alone -/

/-- The last changes of a request, where they have files. -/
def lastChanges (m : TranscriptMaps) (requestId : String) : Option TurnChanges :=
  match m.turnChanges.lookup requestId with
  | some (.turnChanges changes) => if hasTurnChangeFiles changes then some changes else none
  | _ => none

/-- What became of a request is told alike: the last answer to it or, where there is none, whether a
state ended it. -/
def ToldAlike (m own : TranscriptMaps) (e : Event) : Prop :=
  match e.event with
  | .approval requestId .. => m.resolved.lookup requestId = own.resolved.lookup requestId ∧
      (own.resolved.lookup requestId = none → m.ended e.seq = own.ended e.seq)
  | .question requestId .. => m.answered.lookup requestId = own.answered.lookup requestId ∧
      (own.answered.lookup requestId = none → m.ended e.seq = own.ended e.seq)
  | _ => True

/-- A turn is told by itself what the log tells of it. -/
structure ToldAlone (m own : TranscriptMaps) (before group : List Event) : Prop where
  requests : ∀ e ∈ group, ToldAlike m own e
  changes : ∀ requestId ∈ recorded group, lastChanges own requestId =
    if requestId ∈ recorded before then none else lastChanges m requestId
  texts : ∀ front e rest text, group = front ++ e :: rest → e.event = .text text →
    talking m.receipts before front.reverse = talking m.receipts [] front.reverse

def EventKind.isRequest : EventKind → Bool
  | approval .. | question .. => true
  | _ => false

/-- A request is shown alike where what became of it is told alike. -/
theorem doing_told {own : TranscriptMaps} {shown shown' : List String} (h : e.event.isRequest = true) :
    doing m shown e = doing own shown' e ↔ ToldAlike m own e := by
  unfold doing ToldAlike
  cases he : e.event with
  | approval requestId about tool input =>
    dsimp only
    generalize m.resolved.lookup requestId = a
    generalize own.resolved.lookup requestId = b
    cases m.ended e.seq <;> cases own.ended e.seq <;> rcases a with _ | _ | _ <;>
      rcases b with _ | _ | _ <;> simp
  | question requestId about questions =>
    dsimp only
    generalize m.answered.lookup requestId = a
    generalize own.answered.lookup requestId = b
    rw [Doing.push.injEq, Item.event.injEq]
    constructor
    · rintro ⟨-, -, hended, rfl, -⟩
      refine ⟨rfl, ?_⟩
      rintro rfl
      simpa using hended
    · rintro ⟨rfl, hended⟩
      refine ⟨rfl, rfl, ?_, rfl, rfl⟩
      rcases a with _ | answers
      · rw [hended rfl]
      · rfl
  | _ =>
    rw [he] at h
    cases h

/-- What an event is that shows neither changes nor a request is not told elsewhere. -/
theorem doing_own {own : TranscriptMaps} (hreceipts : own.receipts = m.receipts) {shown shown' : List String}
    (hrequest : e.event.isRequest = false) (hchanges : e.event.recorded? = none) :
    doing m shown e = doing own shown' e := by
  unfold doing
  rw [hreceipts]
  cases he : e.event with
  | approval =>
    rw [he] at hrequest
    cases hrequest
  | question =>
    rw [he] at hrequest
    cases hrequest
  | turnChanges changes =>
    rw [he] at hchanges
    cases hchanges
  | _ => rfl

section Alone

variable {own : TranscriptMaps} {group : List Event}

theorem lastChanges_eq {requestId : String} {changes : TurnChanges}
    (h : m.turnChanges.lookup requestId = some (.turnChanges changes)) :
    lastChanges m requestId = if hasTurnChangeFiles changes then some changes else none := by
  unfold lastChanges
  rw [h]

/-- The row of changes. -/
theorem doing_changes {shown : List String} {changes value : TurnChanges} (he : e.event = .turnChanges changes)
    (h : m.turnChanges.lookup changes.requestId = some (.turnChanges value)) :
    doing m shown e = if changes.requestId ∈ shown then .nothing
      else .push (.plain e.seq (.turnChanges value)) := by
  unfold doing
  rw [he]
  dsimp only
  rw [h]
  rfl

theorem itemsFrom_last {shown : List String} : itemsFrom m shown [] (front ++ [e]) =
    (doing m (front.foldl noted shown) e).on e.seq (itemsFrom m shown [] front) := by
  rw [itemsFrom_concat]
  rfl

/-- The same event goes on alike. -/
theorem on_filter {seq : ℕ} {d : Doing} {items items' : List Item}
    (h : items.filter Item.visible = items'.filter Item.visible)
    (hsay : ∀ text, d = .say text →
      items.head?.any Item.isAssistant = items'.head?.any Item.isAssistant) :
    (d.on seq items).filter Item.visible = (d.on seq items').filter Item.visible := by
  cases d with
  | nothing => exact h
  | push item =>
    show List.filter _ (item :: items) = List.filter _ (item :: items')
    rw [List.filter_cons, List.filter_cons, h]
  | say text =>
    have hhead := hsay text rfl
    have hnew : ∀ {l : List Item}, l.head?.any Item.isAssistant = false →
        (Doing.say text).on seq l = .assistant seq text :: l := by
      intro l hl
      rcases l with _ | ⟨⟨⟩ | ⟨key, said⟩ | ⟨⟩, below⟩ <;> first | rfl | cases hl
    cases hsaid : items.head?.any Item.isAssistant with
    | false =>
      rw [hnew hsaid, hnew (hhead ▸ hsaid)]
      show _ :: _ = _ :: _
      rw [h]
    | true =>
      have hold : ∀ {l : List Item}, l.head?.any Item.isAssistant = true →
          ∃ key said below, l = .assistant key said :: below := by
        intro l hl
        rcases l with _ | ⟨⟨⟩ | ⟨key, said⟩ | ⟨⟩, below⟩ <;> first | exact ⟨_, _, _, rfl⟩ | cases hl
      obtain ⟨key, said, below, rfl⟩ := hold hsaid
      obtain ⟨key', said', below', rfl⟩ := hold (hhead ▸ hsaid)
      obtain ⟨hfirst, hrest⟩ := List.cons.inj h
      obtain ⟨rfl, rfl⟩ := Item.assistant.inj hfirst
      exact congrArg (_ :: ·) hrest

theorem doing_text {shown : List String} {text : String} (h : doing m shown e = .say text) :
    e.event = .text text := by
  unfold doing at h
  split at h <;> try split_ifs at h
  all_goals first
    | obtain rfl := Doing.say.inj h
      assumption
    | cases h

/-- Changes go on alike where the turn shows them as the log does. -/
theorem changes_filter {own : TranscriptMaps} {changes value last : TurnChanges}
    {items items' : List Item} (he : e.event = .turnChanges changes)
    (hvalue : m.turnChanges.lookup changes.requestId = some (.turnChanges value))
    (hlast : own.turnChanges.lookup changes.requestId = some (.turnChanges last))
    (hchanges : lastChanges own changes.requestId =
      if changes.requestId ∈ recorded before then none else lastChanges m changes.requestId)
    (h : items.filter Item.visible = items'.filter Item.visible) :
    ((doing m (front.foldl noted (recorded before)) e).on e.seq items).filter Item.visible =
      ((doing own (front.foldl noted (recorded [])) e).on e.seq items').filter Item.visible := by
  have hpush : ∀ (c : TurnChanges) (l : List Item),
      ((Doing.push (.plain e.seq (.turnChanges c))).on e.seq l).filter Item.visible =
        if hasTurnChangeFiles c then .plain e.seq (.turnChanges c) :: l.filter Item.visible
        else l.filter Item.visible := fun c l => List.filter_cons
  rw [lastChanges_eq hvalue, lastChanges_eq hlast] at hchanges
  rw [doing_changes he hvalue, doing_changes he hlast, if_congr mem_foldl_noted rfl rfl,
    if_congr mem_foldl_noted rfl rfl]
  by_cases hfirst : changes.requestId ∈ recorded front
  · rw [if_pos (.inl hfirst), if_pos (.inl hfirst)]
    exact h
  · have hnil : ¬(changes.requestId ∈ recorded front ∨ changes.requestId ∈ recorded []) := by
      simpa [recorded] using hfirst
    rw [if_neg hnil, hpush]
    by_cases hshown : changes.requestId ∈ recorded before
    · rw [if_pos hshown] at hchanges
      rw [if_pos (.inr hshown)]
      split_ifs at hchanges ⊢
      exact h
    · rw [if_neg hshown] at hchanges
      rw [if_neg (by tauto), hpush]
      split_ifs at hchanges ⊢
      · rw [Option.some.inj hchanges, h]
      · exact h

/-- Where the turn is told what the log tells, its items are the same. -/
theorem items_of_told {own : TranscriptMaps} {group : List Event} (hreceipts : own.receipts = m.receipts)
    (hknown : ∀ r ∈ recorded group, ∃ changes, m.turnChanges.lookup r = some (.turnChanges changes))
    (howned : ∀ r ∈ recorded group, ∃ changes, own.turnChanges.lookup r = some (.turnChanges changes))
    (h : ToldAlone m own before group) : itemsOf m before group = itemsOf own [] group := by
  have hfront : ∀ front rest, group = front ++ rest →
      (itemsFrom m (recorded before) [] front).filter Item.visible =
        (itemsFrom own (recorded []) [] front).filter Item.visible := by
    intro front
    induction front using List.reverseRecOn with
    | nil => exact fun _ _ => rfl
    | append_singleton front e ih =>
      intro rest heq
      rw [List.append_assoc] at heq
      have hitems := ih (e :: rest) heq
      have hmem : e ∈ group := by rw [heq]; simp
      rw [itemsFrom_last, itemsFrom_last]
      have hsame : doing m (front.foldl noted (recorded before)) e =
          doing own (front.foldl noted (recorded [])) e →
          ((doing m (front.foldl noted (recorded before)) e).on e.seq
              (itemsFrom m (recorded before) [] front)).filter Item.visible =
            ((doing own (front.foldl noted (recorded [])) e).on e.seq
              (itemsFrom own (recorded []) [] front)).filter Item.visible := by
        intro hdoing
        rw [← hdoing]
        refine on_filter hitems fun text hsay => ?_
        have htext := h.texts front e rest text heq (doing_text hsay)
        rw [head_talking, head_talking, hreceipts]
        exact htext
      cases hrequest : e.event.isRequest with
      | true => exact hsame ((doing_told hrequest).2 (h.requests e hmem))
      | false =>
        cases hrecorded : e.event.recorded? with
        | none => exact hsame (doing_own hreceipts hrequest hrecorded)
        | some requestId =>
          have hr : requestId ∈ recorded group := List.mem_filterMap.2 ⟨e, hmem, hrecorded⟩
          cases he : e.event with
          | turnChanges changes =>
            rw [he] at hrecorded
            obtain rfl := Option.some.inj hrecorded
            obtain ⟨value, hvalue⟩ := hknown _ hr
            obtain ⟨last, hlast⟩ := howned _ hr
            exact changes_filter he hvalue hlast (h.changes _ hr) hitems
          | _ =>
            rw [he] at hrecorded
            cases hrecorded
  unfold itemsOf
  rw [List.filter_reverse, List.filter_reverse, hfront group [] (by simp)]

/-- An item that depends on the rest of the log. -/
def Item.tells : Item → Bool
  | assistant .. => true
  | event _ value .. => value.isRequest || value.recorded?.isSome
  | user .. => false

theorem request_push {shown : List String} (h : e.event.isRequest = true) :
    ∃ item, doing m shown e = .push item ∧ item.tells = true ∧ item.visible = true := by
  unfold doing
  revert h
  cases e.event <;> intro h <;> first | exact ⟨_, rfl, rfl, rfl⟩ | cases h

/-- The first record of a request's changes. -/
theorem first_recorded : ∀ {group : List Event} {requestId : String}, requestId ∈ recorded group →
    ∃ front f rest changes, group = front ++ f :: rest ∧ f.event = .turnChanges changes ∧
      changes.requestId = requestId ∧ requestId ∉ recorded front
  | [], _, h => by cases h
  | e :: group, requestId, h => by
    cases hrecorded : e.event.recorded? with
    | none =>
      have hrest : requestId ∈ recorded group := by simpa [recorded, hrecorded] using h
      obtain ⟨front, f, rest, changes, rfl, hf, hid, hnew⟩ := first_recorded hrest
      exact ⟨e :: front, f, rest, changes, rfl, hf, hid, by simpa [recorded, hrecorded] using hnew⟩
    | some first =>
      by_cases heq : first = requestId
      · subst heq
        cases he : e.event with
        | turnChanges changes =>
          rw [he] at hrecorded
          exact ⟨[], e, group, changes, rfl, he, Option.some.inj hrecorded, by simp [recorded]⟩
        | _ =>
          rw [he] at hrecorded
          cases hrecorded
      · have hrest : requestId ∈ recorded group := by
          have hmem : requestId = first ∨ requestId ∈ recorded group := by simpa [recorded, hrecorded] using h
          exact hmem.resolve_left (Ne.symm heq)
        obtain ⟨front, f, rest, changes, rfl, hf, hid, hnew⟩ := first_recorded hrest
        refine ⟨e :: front, f, rest, changes, rfl, hf, hid, ?_⟩
        simpa [recorded, hrecorded, Ne.symm heq] using hnew

/-- The event of an item. -/
theorem shown_by {group : List Event} {shown : List String} (hgroup : group.Pairwise (·.seq < ·.seq))
    (he : e ∈ group) {own : TranscriptMaps} (hpush : doing m shown e = .push item)
    (h : item ∈ itemsOf own before group) :
    ∃ front : List Event, doing own (front.foldl noted (recorded before)) e = .push item := by
  obtain ⟨front, f, rest, heq, hf⟩ := exists_of_mem_itemsOf h (doing_not_assistant hpush)
  have hkey : f.seq = e.seq := (TranscriptScan.doing_key hf).symm.trans (TranscriptScan.doing_key hpush)
  obtain rfl := event_unique hgroup (by rw [heq]; simp) he hkey
  exact ⟨front, hf⟩

/-- The row of changes at their first record. -/
theorem changes_mem {group : List Event} {changes value c : TurnChanges}
    (hgroup : group.Pairwise (·.seq < ·.seq)) (heq : group = front ++ e :: rest)
    (he : e.event = .turnChanges changes) (hnew : changes.requestId ∉ recorded front)
    (hvalue : m.turnChanges.lookup changes.requestId = some (.turnChanges value)) :
    .plain e.seq (.turnChanges c) ∈ itemsOf m before group ↔
      changes.requestId ∉ recorded before ∧ c = value ∧ hasTurnChangeFiles c = true := by
  constructor
  · intro hmem
    have hpush : doing { m with turnChanges := [(changes.requestId, .turnChanges c)] } [] e =
        .push (.plain e.seq (.turnChanges c)) := by
      have hlook : [(changes.requestId, EventKind.turnChanges c)].lookup changes.requestId =
          some (.turnChanges c) := by simp
      rw [@doing_changes _ e [] changes c he hlook]
      rfl
    obtain ⟨shown, hshown⟩ := shown_by hgroup (by rw [heq]; simp) hpush hmem
    rw [doing_changes he hvalue] at hshown
    split_ifs at hshown with hknown
    have hitem := Doing.push.inj hshown
    refine ⟨fun hbefore => hknown (mem_foldl_noted.2 (.inr hbefore)), ?_, (List.mem_filter.1 hmem).2⟩
    exact (EventKind.turnChanges.inj (Item.event.inj hitem).2.1).symm
  · rintro ⟨hbefore, rfl, hfiles⟩
    have hpush : doing m (front.foldl noted (recorded before)) e = .push (.plain e.seq (.turnChanges c)) := by
      rw [doing_changes he hvalue, if_neg]
      exact fun hknown => (mem_foldl_noted.1 hknown).elim hnew hbefore
    rw [heq]
    exact mem_itemsOf hpush hfiles

/-- Where the items of a turn that depend on the log are the same, the turn is told what the log tells. -/
theorem told_of_items {own : TranscriptMaps} {group : List Event} (hgroup : group.Pairwise (·.seq < ·.seq))
    (hreceipts : own.receipts = m.receipts)
    (hknown : ∀ r ∈ recorded group, ∃ changes, m.turnChanges.lookup r = some (.turnChanges changes))
    (howned : ∀ r ∈ recorded group, ∃ changes, own.turnChanges.lookup r = some (.turnChanges changes))
    (h : ∀ item : Item, item.tells = true → (item ∈ itemsOf m before group ↔ item ∈ itemsOf own [] group)) :
    ToldAlone m own before group where
  requests := fun e he => by
    cases hrequest : e.event.isRequest with
    | false =>
      unfold ToldAlike
      revert hrequest
      cases e.event <;> intro hrequest <;> trivial
    | true =>
      obtain ⟨front, rest, heq⟩ := List.append_of_mem he
      obtain ⟨item, hpush, htells, hvisible⟩ :=
        @request_push m e (front.foldl noted (recorded before)) hrequest
      have hmem : item ∈ itemsOf m before group := heq ▸ mem_itemsOf hpush hvisible
      obtain ⟨shown, hown⟩ := shown_by hgroup he hpush ((h item htells).1 hmem)
      exact (doing_told hrequest).1 (hpush.trans hown.symm)
  changes := fun requestId hr => by
    obtain ⟨front, f, rest, changes, heq, hf, rfl, hnew⟩ := first_recorded hr
    obtain ⟨value, hvalue⟩ := hknown _ hr
    obtain ⟨last, hlast⟩ := howned _ hr
    have hrow := fun c => h (.plain f.seq (.turnChanges c)) rfl
    have halike : ∀ c, (changes.requestId ∉ recorded before ∧ c = value ∧ hasTurnChangeFiles c = true) ↔
        (c = last ∧ hasTurnChangeFiles c = true) := by
      intro c
      rw [← changes_mem hgroup heq hf hnew hvalue, hrow c, changes_mem hgroup heq hf hnew hlast]
      simp [recorded]
    rw [lastChanges_eq hvalue, lastChanges_eq hlast]
    by_cases hbefore : changes.requestId ∈ recorded before
    · have hempty := mt (halike last).2
      simp only [hbefore, not_true, false_and, not_false_eq_true, forall_const, true_and] at hempty
      rw [if_pos hbefore, if_neg hempty]
    · rw [if_neg hbefore]
      by_cases hfiles : hasTurnChangeFiles last = true
      · obtain ⟨-, rfl, -⟩ := (halike last).2 ⟨rfl, hfiles⟩
        rfl
      · have hempty : ¬hasTurnChangeFiles value = true := fun hfull => by
          obtain ⟨rfl, -⟩ := (halike value).1 ⟨hbefore, rfl, hfull⟩
          exact hfiles hfull
        rw [if_neg hfiles, if_neg hempty]
  texts := fun front e rest text heq he => by
    have hwhole := @text_begins m before front rest e text he (heq ▸ hgroup)
    have halone := @text_begins own [] front rest e text he (heq ▸ hgroup)
    have hboth := exists_congr fun said => h (.assistant e.seq said) rfl
    rw [← heq] at hwhole halone
    rw [hboth, halone, hreceipts] at hwhole
    rw [Bool.eq_iff_iff, ← not_iff_not, Bool.not_eq_true, Bool.not_eq_true]
    exact hwhole.symm

end Alone

end LatteWork
