import LatteWork.Proofs.ToolPairing

/-!
# The rows of the activity

The groups hide which rows there were: taken apart, they are the calls with rows of their own, and the
other rows stand between them as they were made. A call is shown in its row or in the row of a request
about it, so that each is shown, and what is shown was called.
-/

namespace LatteWork

/-! ### The groups taken apart -/

/-- A row, the calls of a group one by one. -/
def ActivityItem.pieces : ActivityItem → List ActivityItem
  | .tools _ group => group.map .tool
  | row => [row]

/-- What is shown of a row. -/
def ActivityRow.pieces (tools : List ToolActivity) (attached : List ℕ) : ActivityRow → List ActivityItem
  | item i approvalTool => [.item i (approvalTool.bind fun index => tools[index]?)]
  | tool index => if index ∈ attached then [] else (tools[index]?.map .tool).toList
  | toolImages key images => [.toolImages key images]

theorem groupRow_pieces (tools : List ToolActivity) (attached : List ℕ) (grouped : List ActivityItem)
    (row : ActivityRow) : (groupRow tools attached grouped row).reverse.flatMap ActivityItem.pieces =
      grouped.reverse.flatMap ActivityItem.pieces ++ row.pieces tools attached := by
  cases row with
  | item i approvalTool => simp [groupRow, ActivityRow.pieces, ActivityItem.pieces]
  | toolImages key images => simp [groupRow, ActivityRow.pieces, ActivityItem.pieces]
  | tool index =>
    unfold groupRow ActivityRow.pieces
    dsimp only
    split_ifs
    · simp
    · rcases tools[index]? with _ | call
      · simp
      · dsimp only
        split_ifs
        · rcases grouped with _ | ⟨first, rest⟩
          · simp [ActivityItem.pieces]
          · cases first with
            | tools key group => simp [ActivityItem.pieces]
            | tool last =>
              dsimp only
              split_ifs <;> simp [ActivityItem.pieces]
            | item i approvalTool => simp [ActivityItem.pieces]
            | toolImages key images => simp [ActivityItem.pieces]
        · simp [ActivityItem.pieces]

theorem groupRows_pieces (tools : List ToolActivity) (attached : List ℕ) :
    ∀ (rows : List ActivityRow) (grouped : List ActivityItem),
      (rows.foldl (groupRow tools attached) grouped).reverse.flatMap ActivityItem.pieces =
        grouped.reverse.flatMap ActivityItem.pieces ++ rows.flatMap (·.pieces tools attached)
  | [], grouped => by simp
  | row :: rest, grouped => by
    rw [List.foldl_cons, groupRows_pieces tools attached rest, groupRow_pieces, List.flatMap_cons,
      List.append_assoc]

/-- The key of a row. -/
def ActivityItem.key : ActivityItem → ℕ
  | item i _ => i.key
  | tool call => call.key
  | .tools key _ => key
  | toolImages key _ => key

/-- A group has the key of its first call. -/
def ActivityItem.Headed : ActivityItem → Prop
  | .tools key group => ∃ first rest, group = first :: rest ∧ first.key = key
  | _ => True

theorem groupRow_headed {tools : List ToolActivity} {attached : List ℕ} {grouped : List ActivityItem}
    (h : ∀ item ∈ grouped, item.Headed) (row : ActivityRow) :
    ∀ item ∈ groupRow tools attached grouped row, item.Headed := by
  have hcons : ∀ {item : ActivityItem}, item.Headed → ∀ i ∈ item :: grouped, i.Headed := fun hitem i hi =>
    (List.mem_cons.1 hi).elim (fun heq => heq ▸ hitem) (h i)
  cases row with
  | item i approvalTool => exact hcons trivial
  | toolImages key images => exact hcons trivial
  | tool index =>
    unfold groupRow
    dsimp only
    split_ifs
    · exact h
    · rcases tools[index]? with _ | call
      · exact h
      · dsimp only
        split_ifs
        · rcases grouped with _ | ⟨first, rest⟩
          · exact hcons trivial
          · have hrest := fun i hi => h i (List.mem_cons_of_mem _ hi)
            cases first with
            | tools key group =>
              obtain ⟨a, more, rfl, hkey⟩ := h _ List.mem_cons_self
              intro i hi
              rcases List.mem_cons.1 hi with rfl | hi
              · exact ⟨a, more ++ [call], rfl, hkey⟩
              · exact hrest i hi
            | tool last =>
              dsimp only
              split_ifs
              · intro i hi
                rcases List.mem_cons.1 hi with rfl | hi
                · exact ⟨last, [call], rfl, rfl⟩
                · exact hrest i hi
              · exact hcons trivial
            | item i approvalTool => exact hcons trivial
            | toolImages key images => exact hcons trivial
        · exact hcons trivial

theorem groupRows_headed {tools : List ToolActivity} {attached : List ℕ} :
    ∀ {rows : List ActivityRow} {grouped : List ActivityItem}, (∀ item ∈ grouped, item.Headed) →
      ∀ item ∈ rows.foldl (groupRow tools attached) grouped, item.Headed
  | [], _, h => h
  | row :: rest, _, h => @groupRows_headed tools attached rest _ (groupRow_headed h row)

/-- A row has the key of what is first in it. -/
theorem ActivityItem.Headed.key_mem {item : ActivityItem} (h : item.Headed) :
    ∃ piece ∈ item.pieces, piece.key = item.key := by
  cases item with
  | tools key group =>
    obtain ⟨first, rest, rfl, hkey⟩ := h
    exact ⟨.tool first, List.mem_cons_self, hkey⟩
  | item i approvalTool => exact ⟨_, List.mem_singleton_self _, rfl⟩
  | tool call => exact ⟨_, List.mem_singleton_self _, rfl⟩
  | toolImages key images => exact ⟨_, List.mem_singleton_self _, rfl⟩

namespace ActivityScan

variable {scan : ActivityScan} {items : List Item}

theorem grouped_headed (scan : ActivityScan) : ∀ item ∈ scan.grouped, item.Headed := fun item hitem =>
  groupRows_headed (fun _ h => by cases h) item (List.mem_reverse.1 hitem)

/-- Taken apart, what is shown are the rows of the loop. -/
theorem grouped_pieces (scan : ActivityScan) : scan.grouped.flatMap ActivityItem.pieces =
    scan.rows.reverse.flatMap (·.pieces scan.tools scan.attached) := by
  rw [grouped, groupRows_pieces]
  rfl

end ActivityScan

/-! ### What the rows are of -/

/-- An item that is neither a call nor a result. -/
def Item.own : Item → Bool
  | event _ (.tool ..) .. | event _ (.toolResult ..) .. => false
  | _ => true

/-- The call that an item is: its number, its tool and its input. -/
def Item.call? : Item → Option (ℕ × String × Option Json)
  | event key (.tool _ name input) .. => some (key, name, some input)
  | _ => none

/-- What a call is told by. -/
def ToolActivity.call (tool : ToolActivity) : ℕ × String × Option Json := (tool.key, tool.name, tool.input)

/-- A request about a call. -/
def Item.asks : Item → Bool
  | event _ (.approval ..) .. | event _ (.question ..) .. => true
  | _ => false

namespace ActivityScan

variable {scan : ActivityScan} {items : List Item}

/-- The rows of a loop over some items. -/
structure Rowed (items : List Item) (scan : ActivityScan) : Prop where
  shown : ∀ item ∈ items, item.own = true → ∃ call, .item item call ∈ scan.rows
  shows : ∀ item call, .item item call ∈ scan.rows → item ∈ items
  asks : ∀ item i, .item item (some i) ∈ scan.rows → item.asks = true
  attached : ∀ i ∈ scan.attached, ∃ item, .item item (some i) ∈ scan.rows
  called : ∀ i < scan.tools.length, .tool i ∈ scan.rows
  images : ∀ key images, .toolImages key images ∈ scan.rows → ∃ item ∈ items, item.key = key
  known : ∀ call ∈ scan.tools.map ToolActivity.call, ∃ item ∈ items, item.key = call.1
  made : ∀ item ∈ items, ∀ call ∈ item.call?, call ∈ scan.tools.map ToolActivity.call

theorem rowed_start (stops : List ℕ) : Rowed [] { terminal := stops } :=
  ⟨fun _ h => (by cases h), fun _ _ h => (by cases h), fun _ _ h => (by cases h), fun _ h => (by cases h),
    fun _ h => (by cases h), fun _ _ h => (by cases h), fun _ h => (by cases h), fun _ h => (by cases h)⟩

theorem Rowed.of_fields {scan' : ActivityScan} (h : Rowed items scan) (hrows : scan'.rows = scan.rows)
    (hattached : scan'.attached = scan.attached)
    (htools : scan'.tools.map ToolActivity.call = scan.tools.map ToolActivity.call) :
    Rowed items scan' where
  shown := fun item hitem hown => hrows ▸ h.shown item hitem hown
  shows := fun item call hrow => h.shows item call (hrows ▸ hrow)
  asks := fun item i hrow => h.asks item i (hrows ▸ hrow)
  attached := fun i hi => hrows ▸ h.attached i (hattached ▸ hi)
  called := fun i hi => by
    have hlen := congrArg List.length htools
    rw [List.length_map, List.length_map] at hlen
    rw [hrows]
    exact h.called i (hlen ▸ hi)
  images := fun key images hrow => h.images key images (hrows ▸ hrow)
  known := fun call hcall => h.known call (htools ▸ hcall)
  made := fun item hitem call hcall => htools ▸ h.made item hitem call hcall

theorem Rowed.finish (h : Rowed items scan) : Rowed items scan.finish := by
  rw [finish_eq]
  exact h.of_fields rfl rfl (map_ended (fun _ _ => rfl) _ _)

theorem Rowed.pass (h : Rowed items scan) (key : ℕ) : Rowed items (scan.pass key) := by
  unfold ActivityScan.pass
  split_ifs
  · exact h.finish.of_fields rfl rfl rfl
  · exact h

theorem Rowed.setTool (h : Rowed items scan) (index : ℕ) {f : ToolActivity → ToolActivity}
    (hf : ∀ tool, (f tool).call = tool.call) : Rowed items (scan.setTool index f) :=
  h.of_fields rfl rfl (map_modify hf index scan.tools)

/-- More rows, and more items. -/
theorem Rowed.more (h : Rowed items scan) {item : Item} {new : List ActivityRow} {scan' : ActivityScan}
    (hrows : scan'.rows = new ++ scan.rows) (htools : scan'.tools = scan.tools)
    (hattached : ∀ i ∈ scan'.attached, i ∈ scan.attached ∨ .item item (some i) ∈ new)
    (hnew : ∀ row ∈ new, ∃ call, row = .item item call ∧ (call ≠ none → item.asks = true))
    (hshown : item.own = true → new ≠ []) (hcall : item.call? = none) : Rowed (items ++ [item]) scan' where
  shown := fun i hi hown => by
    rw [hrows]
    rcases List.mem_append.1 hi with hi | hi
    · obtain ⟨call, hcall⟩ := h.shown i hi hown
      exact ⟨call, List.mem_append_right _ hcall⟩
    · obtain rfl := List.mem_singleton.1 hi
      obtain ⟨row, hrow⟩ := List.exists_mem_of_ne_nil _ (hshown hown)
      obtain ⟨call, rfl, -⟩ := hnew row hrow
      exact ⟨call, List.mem_append_left _ hrow⟩
  shows := fun i call hrow => by
    rw [hrows] at hrow
    rcases List.mem_append.1 hrow with hrow | hrow
    · obtain ⟨_, heq, -⟩ := hnew _ hrow
      obtain ⟨rfl, -⟩ := ActivityRow.item.inj heq
      simp
    · exact List.mem_append_left _ (h.shows i call hrow)
  asks := fun i index hrow => by
    rw [hrows] at hrow
    rcases List.mem_append.1 hrow with hrow | hrow
    · obtain ⟨call, heq, hasks⟩ := hnew _ hrow
      obtain ⟨rfl, rfl⟩ := ActivityRow.item.inj heq
      exact hasks (by simp)
    · exact h.asks i index hrow
  attached := fun i hi => by
    rw [hrows]
    rcases hattached i hi with hi | hi
    · obtain ⟨asking, hrow⟩ := h.attached i hi
      exact ⟨asking, List.mem_append_right _ hrow⟩
    · exact ⟨item, List.mem_append_left _ hi⟩
  called := fun i hi => hrows ▸ List.mem_append_right _ (h.called i (htools ▸ hi))
  images := fun key images hrow => by
    rw [hrows] at hrow
    rcases List.mem_append.1 hrow with hrow | hrow
    · obtain ⟨_, heq, -⟩ := hnew _ hrow
      cases heq
    · obtain ⟨i, hi, hkey⟩ := h.images key images hrow
      exact ⟨i, List.mem_append_left _ hi, hkey⟩
  known := fun call hmem => by
    obtain ⟨i, hi, hkey⟩ := h.known call (htools ▸ hmem)
    exact ⟨i, List.mem_append_left _ hi, hkey⟩
  made := fun i hi call hmem => by
    rw [htools]
    rcases List.mem_append.1 hi with hi | hi
    · exact h.made i hi call hmem
    · obtain rfl := List.mem_singleton.1 hi
      rw [hcall] at hmem
      cases hmem

/-- An item with a row of its own. -/
theorem Rowed.push (h : Rowed items scan) {item : Item} (hcall : item.call? = none) :
    Rowed (items ++ [item]) (scan.push (.item item none)) := by
  refine @Rowed.more scan items h item [.item item none] _ rfl rfl (fun i hi => .inl hi) (fun row hrow => ?_)
    (fun _ => by simp) hcall
  exact ⟨none, List.mem_singleton.1 hrow, fun hne => absurd rfl hne⟩

/-- A request with the call it is about. -/
theorem Rowed.attach (h : Rowed items scan) {item : Item} (hitem : item.asks = true)
    (hcall : item.call? = none) (index : ℕ) : Rowed (items ++ [item])
      { scan.push (.item item (some index)) with attached := index :: scan.attached } := by
  refine @Rowed.more scan items h item [.item item (some index)] _ rfl rfl (fun i hi => ?_) (fun row hrow => ?_)
    (fun _ => by simp) hcall
  · rcases List.mem_cons.1 hi with rfl | hi
    · exact .inr (List.mem_singleton_self _)
    · exact .inl hi
  · exact ⟨some index, List.mem_singleton.1 hrow, fun _ => hitem⟩

/-- An item without a row of its own. -/
theorem Rowed.unshown (h : Rowed items scan) {item : Item} (hitem : item.own = false)
    (hcall : item.call? = none) : Rowed (items ++ [item]) scan :=
  @Rowed.more scan items h item [] scan rfl rfl (fun _ hi => .inl hi) (fun _ hrow => by cases hrow)
    (fun hown => by rw [hitem] at hown; cases hown) hcall

/-- A call that an item makes. -/
theorem Rowed.pushTool (h : Rowed items scan) {item : Item} {tool : ToolActivity} (hitem : item.own = false)
    (hkey : tool.key = item.key) (hcall : ∀ call ∈ item.call?, tool.call = call) :
    Rowed (items ++ [item]) (scan.pushTool tool) where
  shown := fun i hi hown => by
    rcases List.mem_append.1 hi with hi | hi
    · obtain ⟨call, hcall⟩ := h.shown i hi hown
      exact ⟨call, List.mem_cons_of_mem _ hcall⟩
    · obtain rfl := List.mem_singleton.1 hi
      rw [hitem] at hown
      cases hown
  shows := fun i call hrow =>
    List.mem_append_left _ (h.shows i call ((List.mem_cons.1 hrow).resolve_left nofun))
  asks := fun i index hrow => h.asks i index ((List.mem_cons.1 hrow).resolve_left nofun)
  attached := fun i hi => by
    obtain ⟨asking, hrow⟩ := h.attached i hi
    exact ⟨asking, List.mem_cons_of_mem _ hrow⟩
  called := fun i hi => by
    have hlen : (scan.pushTool tool).tools.length = scan.tools.length + 1 := List.length_append
    rcases Nat.lt_or_ge i scan.tools.length with hlt | hge
    · exact List.mem_cons_of_mem _ (h.called i hlt)
    · obtain rfl : i = scan.tools.length := by omega
      exact List.mem_cons_self
  images := fun key images hrow => by
    obtain ⟨i, hi, heq⟩ := h.images key images ((List.mem_cons.1 hrow).resolve_left nofun)
    exact ⟨i, List.mem_append_left _ hi, heq⟩
  known := fun call hmem => by
    have htools : (scan.pushTool tool).tools = scan.tools ++ [tool] := rfl
    rw [htools, List.map_append, List.mem_append] at hmem
    rcases hmem with hmem | hmem
    · obtain ⟨i, hi, heq⟩ := h.known call hmem
      exact ⟨i, List.mem_append_left _ hi, heq⟩
    · obtain rfl : call = tool.call := List.mem_singleton.1 hmem
      exact ⟨item, by simp, hkey.symm⟩
  made := fun i hi call hmem => by
    have htools : (scan.pushTool tool).tools = scan.tools ++ [tool] := rfl
    rw [htools, List.map_append, List.mem_append]
    rcases List.mem_append.1 hi with hi | hi
    · exact .inl (h.made i hi call hmem)
    · obtain rfl := List.mem_singleton.1 hi
      exact .inr (List.mem_singleton.2 (hcall call hmem).symm)

theorem Rowed.withImages (h : Rowed items scan) {key : ℕ} (hkey : ∃ item ∈ items, item.key = key)
    (images : List Json) : Rowed items (scan.withImages key images) := by
  unfold ActivityScan.withImages
  split_ifs
  · exact h
  · refine ⟨fun i hi hown => ?_, fun i call hrow => ?_, fun i index hrow => ?_, fun i hi => ?_, fun i hi => ?_,
      fun k imgs hrow => ?_, h.known, h.made⟩
    · obtain ⟨call, hcall⟩ := h.shown i hi hown
      exact ⟨call, List.mem_cons_of_mem _ hcall⟩
    · exact h.shows i call ((List.mem_cons.1 hrow).resolve_left nofun)
    · exact h.asks i index ((List.mem_cons.1 hrow).resolve_left nofun)
    · obtain ⟨item, hrow⟩ := h.attached i hi
      exact ⟨item, List.mem_cons_of_mem _ hrow⟩
    · exact List.mem_cons_of_mem _ (h.called i hi)
    · rcases List.mem_cons.1 hrow with heq | hrow
      · obtain ⟨rfl, -⟩ := ActivityRow.toolImages.inj heq
        exact hkey
      · exact h.images k imgs hrow

theorem asked_asks {key : ℕ} {value : EventKind} {resolved : Option Bool}
    {answers : Option (Option (List QuestionAnswer))} {decision : Option ApprovalDecision} {i : ℕ}
    (h : scan.asked value = some i) : (Item.event key value resolved answers decision).asks = true := by
  unfold asked at h
  split at h
  · rfl
  · rfl
  · cases h

theorem Rowed.take (h : Rowed items scan) (item : Item) : Rowed (items ++ [item]) (scan.take item) := by
  unfold ActivityScan.take
  cases item with
  | user key text atMs handoff hidden =>
    dsimp only
    split_ifs
    · exact h.push rfl
    · exact h.finish.push rfl
  | assistant key text => exact h.push rfl
  | event key value resolved answers decision =>
    dsimp only
    split
    · refine (h.pushTool rfl rfl ?_).of_fields rfl rfl rfl
      rintro _ ⟨⟩
      rfl
    · rename_i id content isError
      rw [result_eq]
      refine Rowed.withImages ?_ ⟨_, List.mem_append_right _ (List.mem_singleton_self _), rfl⟩ _
      unfold resulted
      split
      · rename_i index _
        have hbehind := @Rowed.unshown scan items h
          (.event key (.toolResult id content isError) resolved answers decision) rfl rfl
        have hset := hbehind.setTool index (f := given content isError) fun _ => rfl
        exact hset.of_fields rfl rfl rfl
      · refine h.pushTool rfl rfl ?_
        rintro _ ⟨⟩
    · rename_i hcall hresult
      have hnone : (Item.event key value resolved answers decision).call? = none := by
        cases value with
        | tool id name input => exact absurd rfl (hcall id name input)
        | _ => rfl
      split
      · rename_i index hasked
        exact (h.attach (asked_asks hasked) hnone index).setTool index fun _ => rfl
      · exact h.push hnone

theorem Rowed.steps : ∀ (more : List Item) {items : List Item} {scan : ActivityScan}, Rowed items scan →
    Rowed (items ++ more) (more.foldl step scan)
  | [], items, _, h => by simpa using h
  | item :: rest, items, scan, h => by
    have hrest := Rowed.steps rest ((h.pass item.key).take item)
    rwa [List.append_assoc] at hrest

theorem rowed_scanOf (items : List Item) (stops : List ℕ) : Rowed items (scanOf items stops) :=
  Rowed.steps items (rowed_start stops)

theorem Rowed.settled (h : Rowed items scan) : Rowed items scan.settled := by
  unfold ActivityScan.settled
  split_ifs
  · exact h.finish
  · exact h

/-- An item is shown in its row. -/
theorem Rowed.item_mem (h : Rowed items scan) {item : Item} (hown : item.own = true) :
    item ∈ items ↔ ∃ tool, .item item tool ∈ scan.grouped.flatMap ActivityItem.pieces := by
  rw [grouped_pieces]
  constructor
  · intro hitem
    obtain ⟨call, hrow⟩ := h.shown item hitem hown
    exact ⟨_, List.mem_flatMap.2 ⟨_, List.mem_reverse.2 hrow, List.mem_singleton_self _⟩⟩
  · rintro ⟨tool, hmem⟩
    obtain ⟨row, hrow, hpiece⟩ := List.mem_flatMap.1 hmem
    cases row with
    | item i call =>
      obtain ⟨rfl, -⟩ := ActivityItem.item.inj (List.mem_singleton.1 hpiece)
      exact h.shows _ _ (List.mem_reverse.1 hrow)
    | tool index =>
      unfold ActivityRow.pieces at hpiece
      dsimp only at hpiece
      split_ifs at hpiece
      · cases hpiece
      · obtain ⟨call, -, heq⟩ := Option.map_eq_some_iff.1 (Option.mem_toList.1 hpiece)
        cases heq
    | toolImages key images => cases List.mem_singleton.1 hpiece

/-- A call is shown in its row, or in the row of a request. -/
def Shows (rows : List ActivityItem) (tool : ToolActivity) : Prop :=
  .tool tool ∈ rows.flatMap ActivityItem.pieces ∨
    ∃ item : Item, item.asks = true ∧ .item item (some tool) ∈ rows.flatMap ActivityItem.pieces

theorem Rowed.shows_tool (h : Rowed items scan) {tool : ToolActivity} :
    Shows scan.grouped tool ↔ tool ∈ scan.tools := by
  unfold Shows
  rw [grouped_pieces]
  constructor
  · rintro (hmem | ⟨item, -, hmem⟩)
    · obtain ⟨row, -, hpiece⟩ := List.mem_flatMap.1 hmem
      cases row with
      | item i call => cases List.mem_singleton.1 hpiece
      | toolImages key images => cases List.mem_singleton.1 hpiece
      | tool index =>
        unfold ActivityRow.pieces at hpiece
        dsimp only at hpiece
        split_ifs at hpiece
        · cases hpiece
        · obtain ⟨call, hcall, heq⟩ := Option.map_eq_some_iff.1 (Option.mem_toList.1 hpiece)
          obtain rfl := ActivityItem.tool.inj heq
          exact List.mem_of_getElem? hcall
    · obtain ⟨row, -, hpiece⟩ := List.mem_flatMap.1 hmem
      cases row with
      | item i call =>
        obtain ⟨-, hcall⟩ := ActivityItem.item.inj (List.mem_singleton.1 hpiece)
        obtain ⟨index, -, hget⟩ := Option.bind_eq_some_iff.1 hcall.symm
        exact List.mem_of_getElem? hget
      | toolImages key images => cases List.mem_singleton.1 hpiece
      | tool index =>
        unfold ActivityRow.pieces at hpiece
        dsimp only at hpiece
        split_ifs at hpiece
        · cases hpiece
        · obtain ⟨call, -, heq⟩ := Option.map_eq_some_iff.1 (Option.mem_toList.1 hpiece)
          cases heq
  · intro htool
    obtain ⟨index, hget⟩ := List.mem_iff_getElem?.1 htool
    by_cases hattached : index ∈ scan.attached
    · obtain ⟨item, hrow⟩ := h.attached index hattached
      refine .inr ⟨item, h.asks item index hrow, List.mem_flatMap.2 ⟨_, List.mem_reverse.2 hrow, ?_⟩⟩
      exact List.mem_singleton.2 (congrArg _ hget.symm)
    · refine .inl (List.mem_flatMap.2 ⟨_, List.mem_reverse.2 (h.called index ?_), ?_⟩)
      · exact (List.getElem?_eq_some_iff.1 hget).1
      · simp [ActivityRow.pieces, hattached, hget]

/-- A row has the number of an item. -/
theorem Rowed.key_mem (h : Rowed items scan) : ∀ row ∈ scan.grouped, ∃ item ∈ items, item.key = row.key := by
  intro row hrow
  obtain ⟨piece, hpiece, hkey⟩ := (grouped_headed scan row hrow).key_mem
  have hmem : piece ∈ scan.grouped.flatMap ActivityItem.pieces := List.mem_flatMap.2 ⟨row, hrow, hpiece⟩
  rw [← hkey]
  rw [grouped_pieces] at hmem
  obtain ⟨below, hbelow, hmem⟩ := List.mem_flatMap.1 hmem
  cases below with
  | item i call =>
    obtain rfl := List.mem_singleton.1 hmem
    exact ⟨i, h.shows i call (List.mem_reverse.1 hbelow), rfl⟩
  | toolImages key images =>
    obtain rfl := List.mem_singleton.1 hmem
    exact h.images key images (List.mem_reverse.1 hbelow)
  | tool index =>
    unfold ActivityRow.pieces at hmem
    dsimp only at hmem
    split_ifs at hmem
    · cases hmem
    · obtain ⟨call, hcall, rfl⟩ := Option.map_eq_some_iff.1 (Option.mem_toList.1 hmem)
      exact h.known _ (List.mem_map_of_mem (List.mem_of_getElem? hcall))

end ActivityScan

end LatteWork
