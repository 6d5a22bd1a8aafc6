import LatteWork.Proofs.TurnItems
import LatteWork.Proofs.TurnRows

/-!
# The turn view and the log view

The turns show the rows of the log, but for what they leave out on purpose, where each turn is told by
itself what the log tells of it, and leaves no call open for the next message to end.
-/

namespace LatteWork

open ActivityScan (scanOf groupsFrom)

/-! ### The two views -/

/-- The rows of a turn in their order. -/
def TranscriptTurn.rows (turn : TranscriptTurn) : List ActivityItem :=
  turn.user.toList ++ turn.segments.flatMap (·.items)

/-- The last state of a turn is a stop. -/
def endsStopped (group : List Event) : Bool :=
  (group.reverse.find? fun e => e.event.status?.isSome).bind (·.event.status?) = some .stopped

/-- The numbers of the events of turns that end stopped. -/
def stoppedEvents (log : List Event) : List ℕ :=
  ((turnGroups log).filter endsStopped).flatMap fun group => group.map (·.seq)

/-- A row of the log that the turns do not leave out on purpose. -/
def shownInTurns (log : List Event) (row : ActivityItem) : Bool :=
  !row.isModel && !(row.isStopped && row.key ∈ stoppedEvents log)

/-- The turns show the rows of the log, each once, in the process or behind it. -/
def Agrees (log : List Event) : Prop :=
  (turnTranscript log).flatMap (·.rows) = (activityTranscript log).filter (shownInTurns log) ∧
    ∀ turn ∈ turnTranscript log, (turn.process ++ turn.visible).Perm (turn.segments.flatMap (·.items))

theorem segments_items (fold : ActivityItem → ℕ → Bool) : ∀ (index : ℕ) (items : List ActivityItem),
    (activitySegments fold index items).flatMap (·.items) = items
  | _, [] => rfl
  | index, item :: rest => by
    have hrest := segments_items fold (index + 1) rest
    unfold activitySegments
    revert hrest
    rcases activitySegments fold (index + 1) rest with _ | ⟨⟨process, items⟩, more⟩ <;> intro hrest
    · rw [← hrest]
      rfl
    · dsimp only
      split_ifs <;> simpa using hrest

theorem parts_perm (turn : TranscriptTurn) :
    (turn.process ++ turn.visible).Perm (turn.segments.flatMap (·.items)) := by
  unfold TranscriptTurn.process TranscriptTurn.visible
  rw [← List.flatMap_append]
  exact (List.filter_append_perm _ _).flatMap_right _

/-- A row that a turn keeps. -/
def keeps (group : List Event) (row : ActivityItem) : Bool :=
  !row.isModel && !(endsStopped group && row.isStopped)

/-- A turn shows the rows of its group that it keeps. -/
theorem turn_rows (receipts : List ((String × String) × String × ℕ)) (group : List Event) :
    (transcriptTurn receipts group).rows = (activityOf receipts group).filter (keeps group) := by
  have hkeeps : (activityOf receipts group).filter (keeps group) =
      ((activityOf receipts group).filter (!ActivityItem.isModel ·)).filter fun row =>
        !(endsStopped group && row.isStopped) := by
    rw [List.filter_filter]
    exact List.filter_congr fun row _ => Bool.and_comm _ _
  have hstopped : ∀ rows : List ActivityItem, (if endsStopped group then
      rows.filter (!ActivityItem.isStopped ·) else rows) =
      rows.filter fun row => !(endsStopped group && row.isStopped) := by
    intro rows
    cases endsStopped group <;> simp
  have hrows : ∀ kept, (activityOf receipts group).filter (!ActivityItem.isModel ·) = kept →
      (transcriptTurn receipts group).rows = (kept.head?.filter ActivityItem.isUser).toList ++
        (let shown := if (kept.head?.filter ActivityItem.isUser).isSome then kept.tail else kept
          if endsStopped group then shown.filter (!ActivityItem.isStopped ·) else shown) := by
    rintro _ rfl
    exact congrArg (_ ++ ·) (segments_items _ 0 _)
  rw [hrows _ rfl, hkeeps]
  dsimp only
  rw [hstopped]
  rcases (activityOf receipts group).filter (!ActivityItem.isModel ·) with _ | ⟨first, rest⟩
  · rfl
  · cases huser : first.isUser with
    | false => simp [huser]
    | true =>
      have hfirst : first.isStopped = false := by
        cases first with
        | item i tool =>
          cases i with
          | user => rfl
          | assistant => cases huser
          | event => cases huser
        | tool => cases huser
        | tools => cases huser
        | toolImages => cases huser
      simp [Option.filter, huser, hfirst]

/-! ### One turn after another -/

/-- The rows of a group within a log: where another follows, what is open is ended. -/
def rowsAmong (m : TranscriptMaps) (before group : List Event) (rest : List (List Event)) :
    List ActivityItem :=
  let scan := scanOf (itemsOf m before group) (stopsOf group)
  (if rest = [] then scan.settled else scan.finish).grouped

/-- The rows of each group. -/
def rowsEach (m : TranscriptMaps) : List Event → List (List Event) → List (List ActivityItem)
  | _, [] => []
  | before, group :: rest => rowsAmong m before group rest :: rowsEach m (before ++ group) rest

theorem groupsFrom_each (m : TranscriptMaps) : ∀ (rest : List (List Event)) (before group : List Event),
    groupsFrom (scanOf (itemsOf m before group) (stopsOf group)) (partsFrom m (before ++ group) rest) =
      rowsEach m before (group :: rest)
  | [], before, group => by
    rw [rowsEach, rowsAmong, if_pos rfl]
    rfl
  | next :: rest, before, group => by
    rw [partsFrom, groupsFrom, groupsFrom_each m rest]
    show _ = rowsAmong m before group (next :: rest) :: _
    rw [rowsAmong, if_neg (List.cons_ne_nil _ _)]

theorem rowsWithin_each (m : TranscriptMaps) (groups : List (List Event)) :
    rowsWithin m groups = rowsEach m [] groups := by
  rcases groups with _ | ⟨group, rest⟩
  · rfl
  · exact groupsFrom_each m rest [] group

theorem rowsAmong_key {m : TranscriptMaps} {before group : List Event} {rest : List (List Event)} :
    ∀ row ∈ rowsAmong m before group rest, ∃ e ∈ group, e.seq = row.key := by
  intro row hrow
  have hscan := ActivityScan.rowed_scanOf (itemsOf m before group) (stopsOf group)
  obtain ⟨item, hitem, hkey⟩ : ∃ item ∈ itemsOf m before group, item.key = row.key := by
    unfold rowsAmong at hrow
    dsimp only at hrow
    split_ifs at hrow
    · exact hscan.settled.key_mem row hrow
    · exact hscan.finish.key_mem row hrow
  obtain ⟨e, he, hseq⟩ := itemsOf_key item hitem
  exact ⟨e, he, hseq.trans hkey⟩

theorem rowsEach_key {m : TranscriptMaps} : ∀ {groups : List (List Event)} {before : List Event},
    ∀ row ∈ (rowsEach m before groups).flatten, ∃ e ∈ groups.flatten, e.seq = row.key
  | [], _, row, h => by cases h
  | group :: rest, before, row, h => by
    rw [rowsEach, List.flatten_cons, List.mem_append] at h
    rw [List.flatten_cons]
    rcases h with h | h
    · obtain ⟨e, he, hkey⟩ := rowsAmong_key row h
      exact ⟨e, List.mem_append_left _ he, hkey⟩
    · obtain ⟨e, he, hkey⟩ := rowsEach_key row h
      exact ⟨e, List.mem_append_right _ he, hkey⟩

/-- A group alone is the only one. -/
theorem activityOf_alone (receipts : List ((String × String) × String × ℕ)) (group : List Event) :
    activityOf receipts group = rowsAmong (.ofEvents receipts group) [] group [] :=
  (activity_alone group receipts).trans (congrArg _ (if_pos rfl).symm)

/-- Two lists that are cut at the same place have the same parts. -/
theorem parts_eq {α : Type} {p : α → Prop} {a b a' b' : List α} (ha : ∀ x ∈ a, p x) (ha' : ∀ x ∈ a', p x)
    (hb : ∀ x ∈ b, ¬p x) (hb' : ∀ x ∈ b', ¬p x) : a ++ b = a' ++ b' ↔ a = a' ∧ b = b' := by
  classical
  constructor
  · intro h
    have hfilter := congrArg (List.filter fun x => decide (p x)) h
    have hnone : ∀ {l : List α}, (∀ x ∈ l, ¬p x) → l.filter (fun x => decide (p x)) = [] := fun hl =>
      List.filter_eq_nil_iff.2 fun x hx => by simpa using hl x hx
    have hall : ∀ {l : List α}, (∀ x ∈ l, p x) → l.filter (fun x => decide (p x)) = l := fun hl =>
      List.filter_eq_self.2 fun x hx => by simpa using hl x hx
    rw [List.filter_append, List.filter_append, hall ha, hall ha', hnone hb, hnone hb', List.append_nil,
      List.append_nil] at hfilter
    subst hfilter
    exact ⟨rfl, List.append_cancel_left h⟩
  · rintro ⟨rfl, rfl⟩
    rfl

/-- The rows of some groups agree where those of each do. -/
theorem rows_each {m : TranscriptMaps} {receipts : List ((String × String) × String × ℕ)}
    {shown : ActivityItem → Bool} : ∀ {groups : List (List Event)} {before : List Event},
    groups.flatten.Pairwise (·.seq < ·.seq) →
    (∀ group ∈ groups, ∀ row : ActivityItem, (∃ e ∈ group, e.seq = row.key) → shown row = keeps group row) →
    ((groups.flatMap fun group => (activityOf receipts group).filter (keeps group)) =
        (rowsEach m before groups).flatten.filter shown ↔
      ∀ front group rest, groups = front ++ group :: rest →
        (activityOf receipts group).filter (keeps group) =
          (rowsAmong m (before ++ front.flatten) group rest).filter (keeps group))
  | [], before, _, _ => by
    refine iff_of_true rfl ?_
    rintro (_ | ⟨_, _⟩) group rest h <;> cases h
  | group :: rest, before, hlog, hshown => by
    rw [List.flatten_cons, List.pairwise_append] at hlog
    obtain ⟨-, hrest, hlt⟩ := hlog
    have hfirst : (rowsAmong m before group rest).filter shown =
        (rowsAmong m before group rest).filter (keeps group) :=
      List.filter_congr fun row hrow => hshown group List.mem_cons_self row (rowsAmong_key row hrow)
    have hlater : ∀ row : ActivityItem, (∃ e ∈ rest.flatten, e.seq = row.key) →
        ¬∃ e ∈ group, e.seq = row.key := by
      rintro row ⟨e, he, hkey⟩ ⟨f, hf, hseq⟩
      exact (hlt f hf e he).ne (hseq.trans hkey.symm)
    rw [rowsEach, List.flatten_cons, List.filter_append, List.flatMap_cons, hfirst,
      @parts_eq _ (fun row : ActivityItem => ∃ e ∈ group, e.seq = row.key), rows_each hrest fun g hg =>
        hshown g (List.mem_cons_of_mem _ hg)]
    · constructor
      · rintro ⟨hgroup, hothers⟩ front g after heq
        rcases front with _ | ⟨first, front⟩
        · obtain ⟨rfl, rfl⟩ := List.cons.inj heq
          rw [List.flatten_nil, List.append_nil]
          exact hgroup
        · obtain ⟨rfl, htail⟩ := List.cons.inj heq
          rw [List.flatten_cons, ← List.append_assoc]
          exact hothers front g after htail
      · intro hall
        constructor
        · have hgroup := hall [] group rest rfl
          rwa [List.flatten_nil, List.append_nil] at hgroup
        · intro front g after heq
          have hgroup := hall (group :: front) g after (congrArg (group :: ·) heq)
          rwa [List.flatten_cons, ← List.append_assoc] at hgroup
    · intro row hrow
      have hmem := (List.mem_filter.1 hrow).1
      rw [activityOf_alone] at hmem
      exact rowsAmong_key row hmem
    · exact fun row hrow => rowsAmong_key row (List.mem_filter.1 hrow).1
    · intro row hrow
      obtain ⟨g, hg, hmem⟩ := List.mem_flatMap.1 hrow
      have hkept := (List.mem_filter.1 hmem).1
      rw [activityOf_alone] at hkept
      obtain ⟨e, he, hkey⟩ := rowsAmong_key row hkept
      exact hlater row ⟨e, List.mem_flatten_of_mem hg he, hkey⟩
    · exact fun row hrow => hlater row (rowsEach_key row (List.mem_filter.1 hrow).1)

/-- What the turns leave out of a group is told by the group. -/
theorem shownInTurns_eq {log group : List Event} (hlog : log.Pairwise (·.seq < ·.seq))
    (hgroup : group ∈ turnGroups log) {row : ActivityItem} (hrow : ∃ e ∈ group, e.seq = row.key) :
    shownInTurns log row = keeps group row := by
  obtain ⟨e, he, hkey⟩ := hrow
  have hstopped : row.key ∈ stoppedEvents log ↔ endsStopped group = true := by
    constructor
    · intro hmem
      obtain ⟨g, hg, hmem⟩ := List.mem_flatMap.1 hmem
      obtain ⟨f, hf, hseq⟩ := List.mem_map.1 hmem
      obtain ⟨hgroups, hends⟩ := List.mem_filter.1 hg
      have hflat := turnGroups_flatten log
      have hin : ∀ {part : List Event} {x : Event}, part ∈ turnGroups log → x ∈ part → x ∈ log :=
        fun hpart hx => hflat ▸ List.mem_flatten_of_mem hpart hx
      obtain rfl := event_unique hlog (hin hgroups hf) (hin hgroup he) (hseq.trans hkey.symm)
      have hnodup : (turnGroups log).flatten.Nodup := by
        rw [hflat]
        exact hlog.imp fun hlt heq => hlt.ne (congrArg Event.seq heq)
      by_contra hother
      have hne : g ≠ group := fun heq => hother (heq ▸ hends)
      have hsymm : Std.Symm (@List.Disjoint Event) := ⟨fun _ _ h => List.disjoint_symm h⟩
      exact (List.nodup_flatten.1 hnodup).2.forall hgroups hgroup hne hf he
    · intro hends
      exact List.mem_flatMap.2 ⟨group, List.mem_filter.2 ⟨hgroup, hends⟩, List.mem_map.2 ⟨e, he, hkey⟩⟩
  unfold shownInTurns keeps
  have hdecide : decide (row.key ∈ stoppedEvents log) = endsStopped group := by
    rw [Bool.eq_iff_iff, decide_eq_true_iff]
    exact hstopped
  rw [hdecide, Bool.and_comm row.isStopped]

/-! ### The calls of a turn -/

namespace ActivityScan

variable {m : TranscriptMaps} {before group : List Event} {scan : ActivityScan}

theorem calls_tools {scan' : ActivityScan} (h : scan.calls = scan'.calls) : scan.tools = scan'.tools := by
  have htools : scan.calls.tools = scan'.calls.tools := by rw [h]
  exact htools

/-- The calls that are pending behind a group are as its events tell. -/
theorem settled_pending (hm : Recording m) (hgroup : group.Pairwise (·.seq < ·.seq)) {tool : ToolActivity}
    (h : tool ∈ (scanOf (itemsOf m before group) (stopsOf group)).settled.tools) :
    tool.status = .pending ↔ stillPending m group.reverse tool.key = true := by
  rw [calls_tools (settled_calls hm hgroup before)] at h
  obtain ⟨i, hi⟩ := List.mem_iff_getElem?.1 h
  exact (paired_log hm hgroup).status i tool hi

theorem settled_finish (scan : ActivityScan) : scan.settled.finish = scan.finish := by
  unfold settled
  split_ifs
  · exact finish_finish scan
  · rfl

/-- The next message ends the calls that are open. -/
theorem finish_pending (hm : Recording m) (hgroup : group.Pairwise (·.seq < ·.seq)) {tool : ToolActivity}
    (h : tool ∈ (scanOf (itemsOf m before group) (stopsOf group)).finish.tools) : tool.status ≠ .pending := by
  have hcalls := finish_calls (settled_calls hm hgroup before)
  rw [settled_finish] at hcalls
  rw [calls_tools hcalls] at h
  obtain ⟨i, hi⟩ := List.mem_iff_getElem?.1 h
  exact (paired_log hm hgroup).none_pending hi

theorem ended_of_none {tools : List ToolActivity} (h : ∀ tool ∈ tools, tool.status ≠ .pending)
    (indices : List ℕ) : ended indices tools = tools := by
  refine List.ext_getElem? fun i => ?_
  rw [getElem_ended]
  rcases htool : tools[i]? with _ | tool
  · rfl
  · have hnone := h tool (List.mem_of_getElem? htool)
    simp [hnone]

/-- Where no call is pending, nothing is ended. -/
theorem finish_grouped (h : ∀ tool ∈ scan.settled.tools, tool.status ≠ .pending) :
    scan.finish.grouped = scan.settled.grouped := by
  rw [← settled_finish, finish_eq, ended_of_none h]
  rfl

/-- A call that is pending is there. -/
theorem settled_made {key : ℕ} (h : stillPending m group.reverse key = true) :
    ∃ tool ∈ (scanOf (itemsOf m before group) (stopsOf group)).settled.tools, tool.key = key := by
  obtain ⟨e, he, rfl, id, name, input, hcall⟩ := stillPending_calls h
  obtain ⟨front, rest, rfl⟩ := List.append_of_mem (List.mem_reverse.1 he)
  have hpush : TranscriptScan.doing m (front.foldl TranscriptScan.noted (recorded before)) e =
      .push (.plain e.seq e.event) := by
    unfold TranscriptScan.doing
    rw [hcall]
  rw [hcall] at hpush
  have hmem := @mem_itemsOf m before front rest e _ hpush rfl
  have hmade := (rowed_scanOf _ (stopsOf (front ++ e :: rest))).settled.made _ hmem _ rfl
  obtain ⟨tool, htool, heq⟩ := List.mem_map.1 hmade
  exact ⟨tool, htool, congrArg Prod.fst heq⟩

end ActivityScan

/-! ### A turn -/

variable {group : List Event}

theorem keeps_tool (tool : ToolActivity) : keeps group (.tool tool) = true := by
  simp [keeps, ActivityItem.isModel, ActivityItem.isStopped]

theorem keeps_pieces {row piece : ActivityItem} (h : piece ∈ row.pieces) :
    keeps group piece = keeps group row := by
  cases row with
  | tools key calls =>
    obtain ⟨tool, -, rfl⟩ := List.mem_map.1 h
    rw [keeps_tool]
    simp [keeps, ActivityItem.isModel, ActivityItem.isStopped]
  | item i tool => rw [List.mem_singleton.1 h]
  | tool call => rw [List.mem_singleton.1 h]
  | toolImages key images => rw [List.mem_singleton.1 h]

theorem mem_kept {rows : List ActivityItem} {piece : ActivityItem} :
    piece ∈ (rows.filter (keeps group)).flatMap ActivityItem.pieces ↔
      piece ∈ rows.flatMap ActivityItem.pieces ∧ keeps group piece = true := by
  rw [List.mem_flatMap, List.mem_flatMap]
  constructor
  · rintro ⟨row, hrow, hpiece⟩
    obtain ⟨hrow, hkept⟩ := List.mem_filter.1 hrow
    exact ⟨⟨row, hrow, hpiece⟩, (keeps_pieces hpiece).trans hkept⟩
  · rintro ⟨⟨row, hrow, hpiece⟩, hkept⟩
    exact ⟨row, List.mem_filter.2 ⟨hrow, (keeps_pieces hpiece).symm.trans hkept⟩, hpiece⟩

theorem keeps_tells {item : Item} (h : item.tells = true) (tool : Option ToolActivity) :
    keeps group (.item item tool) = true := by
  cases item with
  | user => cases h
  | assistant => simp [keeps, ActivityItem.isModel, ActivityItem.isStopped]
  | event key value resolved answers decision =>
    cases value <;> first | (simp [keeps, ActivityItem.isModel, ActivityItem.isStopped]; done) | cases h

theorem tells_of_asks {item : Item} (h : item.asks = true) : item.tells = true := by
  cases item with
  | user => cases h
  | assistant => cases h
  | event key value resolved answers decision => cases value <;> first | rfl | cases h

theorem own_of_tells {item : Item} (h : item.tells = true) : item.own = true := by
  cases item with
  | user => cases h
  | assistant => rfl
  | event key value resolved answers decision => cases value <;> first | rfl | cases h

/-- Where the rows that are kept are the same, so are the items that depend on the log. -/
theorem tells_alike {items items' : List Item} {scan scan' : ActivityScan}
    (hscan : ActivityScan.Rowed items scan) (hscan' : ActivityScan.Rowed items' scan')
    (h : scan.grouped.filter (keeps group) = scan'.grouped.filter (keeps group)) {item : Item}
    (hitem : item.tells = true) : item ∈ items ↔ item ∈ items' := by
  have hkept : ∀ {s : ActivityScan} {tool : Option ToolActivity},
      .item item tool ∈ s.grouped.flatMap ActivityItem.pieces ↔
        .item item tool ∈ (s.grouped.filter (keeps group)).flatMap ActivityItem.pieces := fun {s tool} =>
    (mem_kept.trans (and_iff_left (keeps_tells hitem tool))).symm
  rw [hscan.item_mem (own_of_tells hitem), hscan'.item_mem (own_of_tells hitem)]
  refine exists_congr fun tool => ?_
  rw [hkept, h, ← hkept]

/-- Where the rows that are kept are the same, so are the calls. -/
theorem tools_alike {items items' : List Item} {scan scan' : ActivityScan}
    (hscan : ActivityScan.Rowed items scan) (hscan' : ActivityScan.Rowed items' scan')
    (h : scan.grouped.filter (keeps group) = scan'.grouped.filter (keeps group)) {tool : ToolActivity}
    (htool : tool ∈ scan.tools) : tool ∈ scan'.tools := by
  have hkept : ∀ {piece : ActivityItem}, keeps group piece = true →
      piece ∈ scan.grouped.flatMap ActivityItem.pieces → piece ∈ scan'.grouped.flatMap ActivityItem.pieces := by
    intro piece hkeeps hmem
    have hboth := mem_kept.2 ⟨hmem, hkeeps⟩
    rw [h] at hboth
    exact (mem_kept.1 hboth).1
  refine hscan'.shows_tool.1 ?_
  rcases hscan.shows_tool.2 htool with hmem | ⟨item, hasks, hmem⟩
  · exact .inl (hkept (keeps_tool tool) hmem)
  · exact .inr ⟨item, hasks, hkept (keeps_tells (tells_of_asks hasks) _) hmem⟩

/-- What changes of a request are recorded is known. -/
theorem lookup_recorded (receipts : List ((String × String) × String × ℕ)) {log : List Event}
    {requestId : String} (h : requestId ∈ recorded log) :
    ∃ changes, (TranscriptMaps.ofEvents receipts log).turnChanges.lookup requestId =
      some (.turnChanges changes) := by
  obtain ⟨e, he, hid⟩ := List.mem_filterMap.1 h
  rcases hlook : (TranscriptMaps.ofEvents receipts log).turnChanges.lookup requestId with _ | value
  · cases hevent : e.event with
    | turnChanges changes =>
      rw [hevent] at hid
      have hmem : (changes.requestId, e.event) ∈ (TranscriptMaps.ofEvents receipts log).turnChanges :=
        List.mem_reverse.2 (List.mem_filterMap.2 ⟨e, he, by rw [hevent]⟩)
      exact absurd (Option.some.inj hid) (Assoc.lookup_eq_none.1 hlook _ hmem)
    | _ =>
      rw [hevent] at hid
      cases hid
  · obtain ⟨changes, rfl⟩ := ActivityScan.recording_ofEvents receipts log requestId value hlook
    exact ⟨changes, rfl⟩

/-- The rows of a turn are those of its group in the log where the turn is told by itself what the log tells
of it and, if another turn follows, leaves no call open. -/
theorem turn_alone {log before : List Event} {rest : List (List Event)}
    {receipts : List ((String × String) × String × ℕ)} (hgroup : group.Pairwise (·.seq < ·.seq))
    (hlog : ∀ e ∈ group, e ∈ log) :
    (activityOf receipts group).filter (keeps group) =
        (rowsAmong (.ofEvents receipts log) before group rest).filter (keeps group) ↔
      ToldAlone (.ofEvents receipts log) (.ofEvents receipts group) before group ∧
        (rest ≠ [] → ∀ key, stillPending (.ofEvents receipts group) group.reverse key = false) := by
  have hrecorded : ∀ r ∈ recorded group, r ∈ recorded log := by
    intro r hr
    obtain ⟨e, he, hid⟩ := List.mem_filterMap.1 hr
    exact List.mem_filterMap.2 ⟨e, hlog e he, hid⟩
  have hknown := fun r hr => lookup_recorded receipts (hrecorded r hr)
  have howned := fun r hr => @lookup_recorded receipts group r hr
  have halone := (ActivityScan.rowed_scanOf (itemsOf (.ofEvents receipts group) [] group) (stopsOf group)).settled
  have hwhole := ActivityScan.rowed_scanOf (itemsOf (.ofEvents receipts log) before group) (stopsOf group)
  have hmade := @ActivityScan.settled_made (.ofEvents receipts group) [] group
  have hstatus := @ActivityScan.settled_pending (.ofEvents receipts group) [] group
    (ActivityScan.recording_ofEvents receipts group) hgroup
  have hended := @ActivityScan.finish_pending (.ofEvents receipts log) before group
    (ActivityScan.recording_ofEvents receipts log) hgroup
  rw [activity_alone]
  unfold rowsAmong
  dsimp only
  constructor
  · intro hrows
    constructor
    · refine told_of_items hgroup rfl hknown howned fun item hitem => (tells_alike ?_ halone hrows.symm hitem)
      split_ifs
      · exact hwhole.settled
      · exact hwhole.finish
    · intro hrest key
      rw [if_neg hrest] at hrows
      by_contra hpending
      obtain ⟨tool, htool, rfl⟩ := hmade (Bool.not_eq_false _ ▸ hpending)
      have hopen := (hstatus htool).2 (Bool.not_eq_false _ ▸ hpending)
      exact hended (tools_alike halone hwhole.finish hrows htool) hopen
  · rintro ⟨htold, hsettles⟩
    have hitems := @items_of_told (.ofEvents receipts log) before (.ofEvents receipts group) group rfl hknown
      howned htold
    rw [hitems]
    split_ifs with hrest
    · rfl
    · rw [ActivityScan.finish_grouped]
      intro tool htool hopen
      have hpending := (hstatus htool).1 hopen
      rw [hsettles hrest] at hpending
      cases hpending

/-! ### The log -/

/-- A turn is told by itself what the log tells of it and, if another turn follows, leaves no call open. -/
def Alone (log before group : List Event) (rest : List (List Event)) : Prop :=
  let receipts := queuedInputReceipts log
  ToldAlone (.ofEvents receipts log) (.ofEvents receipts group) before group ∧
    (rest ≠ [] → ∀ key, stillPending (.ofEvents receipts group) group.reverse key = false)

/-- The turns show the rows of the log where each turn is told what the log tells of it, and leaves no call
open for the next message to end. -/
theorem turns_agree {log : List Event} (hlog : log.Pairwise (·.seq < ·.seq)) :
    Agrees log ↔ ∀ front group rest, turnGroups log = front ++ group :: rest →
      Alone log front.flatten group rest := by
  have hflat := turnGroups_flatten log
  have hin : ∀ group ∈ turnGroups log, ∀ e ∈ group, e ∈ log := fun group hgroup e he =>
    hflat ▸ List.mem_flatten_of_mem hgroup he
  have hturns : (turnTranscript log).flatMap (·.rows) = (turnGroups log).flatMap fun group =>
      (activityOf (queuedInputReceipts log) group).filter (keeps group) := by
    unfold turnTranscript
    rw [List.flatMap_map]
    exact List.flatMap_congr fun group _ => turn_rows (queuedInputReceipts log) group
  have hrows : activityTranscript log =
      (rowsEach (.ofEvents (queuedInputReceipts log) log) [] (turnGroups log)).flatten := by
    rw [← rowsWithin_each, ← activity_groups hlog]
    rfl
  have heach := @rows_each (.ofEvents (queuedInputReceipts log) log) (queuedInputReceipts log)
    (shownInTurns log) (turnGroups log) [] (hflat.symm ▸ hlog) fun group hgroup row hrow =>
      shownInTurns_eq hlog hgroup hrow
  have hparts : Agrees log ↔ (turnTranscript log).flatMap (·.rows) =
      (activityTranscript log).filter (shownInTurns log) := and_iff_left fun turn _ => parts_perm turn
  rw [hparts, hturns, hrows, heach]
  refine forall_congr' fun front => forall_congr' fun group => forall_congr' fun rest =>
    imp_congr_right fun heq => ?_
  have hmem : group ∈ turnGroups log := by rw [heq]; simp
  have hgroup : group.Pairwise (·.seq < ·.seq) := by
    have hpart := List.sublist_flatten_of_mem hmem
    rw [hflat] at hpart
    exact hlog.sublist hpart
  exact turn_alone hgroup (hin group hmem)

/-- A turn with a call, its result and a reply. -/
def oneTurn : List Event :=
  [{ sessionId := "s", seq := 1, atMs := 0, event := .user "看看" "r1" },
   { sessionId := "s", seq := 2, atMs := 0, event := .tool "t" "Read" .null },
   { sessionId := "s", seq := 3, atMs := 0, event := .toolResult "t" .null false },
   { sessionId := "s", seq := 4, atMs := 0, event := .text "好了" },
   { sessionId := "s", seq := 5, atMs := 0, event := .state .completed none }]

theorem turns_agree_oneTurn : Agrees oneTurn := by
  refine (turns_agree (by simp [oneTurn])).2 fun front group rest heq => ?_
  have hone : turnGroups oneTurn = [oneTurn] := rfl
  rw [hone] at heq
  obtain ⟨rfl, hlast⟩ : front = [] ∧ group :: rest = [oneTurn] := by
    rcases List.append_eq_singleton_iff.1 heq.symm with h | ⟨-, h⟩
    · exact h
    · cases h
  obtain ⟨rfl, rfl⟩ := List.cons.inj hlast
  refine ⟨⟨fun e _ => ?_, fun _ _ => rfl, fun _ _ _ _ _ _ => rfl⟩, fun hrest => absurd rfl hrest⟩
  unfold ToldAlike
  split
  · exact ⟨rfl, fun _ => rfl⟩
  · exact ⟨rfl, fun _ => rfl⟩
  · trivial

/-- An approval that is answered behind the next message of the turn. -/
def answeredLater : List Event :=
  [{ sessionId := "s", seq := 1, atMs := 0, event := .user "改" "r1" },
   { sessionId := "s", seq := 2, atMs := 0, event := .approval "a" none "Bash" .null },
   { sessionId := "s", seq := 3, atMs := 0, event := .user "快" "r2" },
   { sessionId := "s", seq := 4, atMs := 0, event := .approvalResolved "a" true }]

theorem turns_agree_answeredLater : answeredLater.Pairwise (·.seq < ·.seq) ∧ ¬Agrees answeredLater := by
  refine ⟨by simp [answeredLater], fun h => ?_⟩
  have hopen := congrArg (List.map ActivityItem.isOpenRequest) h.1
  have hturns : ((turnTranscript answeredLater).flatMap (·.rows)).map ActivityItem.isOpenRequest =
      [false, true, false] := rfl
  have hlog : ((activityTranscript answeredLater).filter (shownInTurns answeredLater)).map
      ActivityItem.isOpenRequest = [false, false, false] := rfl
  rw [hturns, hlog] at hopen
  cases hopen

end LatteWork
