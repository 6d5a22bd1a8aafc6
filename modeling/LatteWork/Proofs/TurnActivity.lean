import LatteWork.Proofs.TurnGroups
import LatteWork.Lib.Table

/-!
# The activity, turn by turn

Behind a user's message nothing that was called before is waited for, so the rest of the loop is the
loop of the rest: its calls are numbered behind those before, and its rows stand on the rows before. The
rows of a log are those of its turns, the calls that a turn leaves open being ended by the next message.
-/

namespace LatteWork

/-! ### A loop on top of another -/

/-- A row among calls that are numbered from `n` on. -/
def ActivityRow.shift (n : ℕ) : ActivityRow → ActivityRow
  | .item i approvalTool => .item i (approvalTool.map (n + ·))
  | .tool index => .tool (n + index)
  | .toolImages key images => .toolImages key images

/-- The call that a row is about. -/
def ActivityRow.call? : ActivityRow → Option ℕ
  | .item _ approvalTool => approvalTool
  | .tool index => some index
  | .toolImages .. => none

namespace ActivityScan

/-- A loop that goes on where `base` stopped, with the states that are still to come. -/
def atop (base scan : ActivityScan) (later : List ℕ) : ActivityScan where
  rows := scan.rows.map (.shift base.tools.length) ++ base.rows
  tools := base.tools ++ scan.tools
  attached := scan.attached.map (base.tools.length + ·) ++ base.attached
  pending := scan.pending.map fun p => (p.1, base.tools.length + p.2)
  unfinished := scan.unfinished.map (base.tools.length + ·)
  terminal := scan.terminal ++ later

variable {base scan : ActivityScan} {later : List ℕ}

/-- The call that a result belongs to. -/
def answered (scan : ActivityScan) (id : String) : Option ℕ :=
  if id = "" then none else scan.pending.lookup id

/-- A call with its result. -/
def given (content : Json) (isError : Bool) (tool : ToolActivity) : ToolActivity :=
  { tool with
    output := some (toolOutput content).1
    status := if tool.status ≠ .denied then (if isError then .failed else .completed) else tool.status }

/-- A result without its call. -/
def stray (key : ℕ) (content : Json) (isError : Bool) : ToolActivity :=
  { key, name := "工具输出", output := some (toolOutput content).1
    status := if isError then .failed else .completed }

/-- The loop behind a result, but for the images of it. -/
def resulted (scan : ActivityScan) (key : ℕ) (id : String) (content : Json) (isError : Bool) :
    ActivityScan :=
  match scan.answered id with
  | some index =>
    { scan.setTool index (given content isError) with
      pending := Assoc.drop id scan.pending
      unfinished := scan.unfinished.filter (· ≠ index) }
  | none => scan.pushTool (stray key content isError)

def withImages (scan : ActivityScan) (key : ℕ) (images : List Json) : ActivityScan :=
  if images.isEmpty then scan else scan.push (.toolImages key images)

theorem result_eq (scan : ActivityScan) (key : ℕ) (id : String) (content : Json) (isError : Bool) :
    scan.result key id content isError =
      (scan.resulted key id content isError).withImages key (toolOutput content).2 := rfl

theorem modify_atop {α : Type} (l more : List α) (i : ℕ) (f : α → α) :
    (l ++ more).modify (l.length + i) f = l ++ more.modify i f :=
  List.modifyTailIdx_add (List.modifyHead f) i l more

theorem atop_setTool (i : ℕ) (f : ToolActivity → ToolActivity) :
    (atop base scan later).setTool (base.tools.length + i) f = atop base (scan.setTool i f) later := by
  unfold setTool atop
  dsimp only
  rw [modify_atop]

theorem atop_setTools (f : ToolActivity → ToolActivity) : ∀ (indices : List ℕ) (scan : ActivityScan),
    (indices.map (base.tools.length + ·)).foldl (fun scan i => scan.setTool i f) (atop base scan later) =
      atop base (indices.foldl (fun scan i => scan.setTool i f) scan) later
  | [], _ => rfl
  | i :: rest, scan => by
    rw [List.map_cons, List.foldl_cons, atop_setTool, atop_setTools f rest, List.foldl_cons]

theorem atop_finish : (atop base scan later).finish = atop base scan.finish later := by
  have h := @atop_setTools base later (fun tool =>
    if tool.status = .pending then { tool with status := .unconfirmed } else tool) scan.unfinished scan
  unfold finish
  rw [show (atop base scan later).unfinished = scan.unfinished.map (base.tools.length + ·) from rfl, h]
  rfl

/-- The calls behind `finish`. -/
def ended (unfinished : List ℕ) (tools : List ToolActivity) : List ToolActivity :=
  unfinished.foldl (fun tools i => tools.modify i fun tool =>
    if tool.status = .pending then { tool with status := .unconfirmed } else tool) tools

theorem finish_eq (scan : ActivityScan) : scan.finish =
    { scan with tools := ended scan.unfinished scan.tools, unfinished := [], pending := [] } := by
  have hfold : ∀ (indices : List ℕ) (s : ActivityScan), indices.foldl (fun scan index =>
      scan.setTool index fun tool =>
        if tool.status = .pending then { tool with status := .unconfirmed } else tool) s =
        { s with tools := ended indices s.tools } := by
    intro indices
    induction indices with
    | nil => intro s; rfl
    | cons i rest ih => intro s; exact ih _
  unfold finish
  rw [hfold]

theorem atop_push (row : ActivityRow) :
    (atop base scan later).push (row.shift base.tools.length) = atop base (scan.push row) later := rfl

theorem atop_pushTool (tool : ToolActivity) :
    (atop base scan later).pushTool tool = atop base (scan.pushTool tool) later := by
  unfold pushTool push atop
  simp [ActivityRow.shift]

/-- States to come end nothing. -/
theorem atop_pass {key : ℕ} (h : ∀ stop ∈ later, key < stop) :
    (atop base scan later).pass key = atop base (scan.pass key) later := by
  have hlater : later.head?.any (· ≤ key) = false := by
    rcases later with _ | ⟨stop, rest⟩
    · rfl
    · simpa using h stop List.mem_cons_self
  have hdrop : later.dropWhile (· ≤ key) = later := by
    rcases later with _ | ⟨stop, rest⟩
    · rfl
    · rw [List.dropWhile_cons_of_neg]
      simpa using h stop List.mem_cons_self
  unfold pass
  rw [atop_finish]
  rcases hterm : scan.terminal with _ | ⟨stop, rest⟩
  · have hover : (atop base scan later).terminal = later := by simp [atop, hterm]
    rw [hover, hlater]
    rfl
  · have hover : (atop base scan later).terminal = stop :: (rest ++ later) := by simp [atop, hterm]
    have happend : (stop :: (rest ++ later)).dropWhile (· ≤ key) =
        (stop :: rest).dropWhile (· ≤ key) ++ later := by
      rw [← List.cons_append, List.dropWhile_append, hdrop]
      split_ifs with hempty
      · rw [List.isEmpty_iff.1 hempty]
        rfl
      · rfl
    rw [hover, happend, List.head?_cons, List.head?_cons]
    split_ifs <;> rfl

theorem drop_atop (n : ℕ) (id : String) (pending : List (String × ℕ)) :
    Assoc.drop id (pending.map fun p => (p.1, n + p.2)) =
      (Assoc.drop id pending).map fun p => (p.1, n + p.2) := by
  unfold Assoc.drop
  rw [List.filter_map]
  rfl

theorem atop_start (key : ℕ) (id name : String) (input : Json) :
    (atop base scan later).start key id name input = atop base (scan.start key id name input) later := by
  unfold start
  rw [atop_pushTool]
  unfold atop pushTool push
  dsimp only
  rw [List.length_append, Assoc.put, Assoc.put, drop_atop]
  split_ifs <;> simp

theorem atop_asked (value : EventKind) :
    (atop base scan later).asked value = (scan.asked value).map (base.tools.length + ·) := by
  have hlookup := fun id => Table.lookup_map_value (base.tools.length + ·) id scan.pending
  unfold asked atop
  split
  · split_ifs
    · rfl
    · exact hlookup _
  · split_ifs
    · rfl
    · exact hlookup _
  · rfl

theorem atop_resulted (key : ℕ) (id : String) (content : Json) (isError : Bool) :
    (atop base scan later).resulted key id content isError =
      atop base (scan.resulted key id content isError) later := by
  have hanswered : (atop base scan later).answered id =
      (scan.answered id).map (base.tools.length + ·) := by
    unfold answered
    split_ifs
    · rfl
    · exact Table.lookup_map_value _ id scan.pending
  unfold resulted
  rw [hanswered]
  cases scan.answered id with
  | none => exact atop_pushTool _
  | some index =>
    have hfilter : (scan.unfinished.map (base.tools.length + ·)).filter (· ≠ base.tools.length + index) =
        (scan.unfinished.filter (· ≠ index)).map (base.tools.length + ·) := by
      rw [List.filter_map]
      simp [Function.comp_def]
    rw [Option.map_some]
    unfold atop setTool
    dsimp only
    rw [drop_atop, hfilter, modify_atop]

theorem atop_result (key : ℕ) (id : String) (content : Json) (isError : Bool) :
    (atop base scan later).result key id content isError =
      atop base (scan.result key id content isError) later := by
  rw [result_eq, result_eq, atop_resulted]
  unfold withImages
  split_ifs
  · rfl
  · exact atop_push (.toolImages key _)

theorem atop_take (item : Item) : (atop base scan later).take item = atop base (scan.take item) later := by
  unfold take
  cases item with
  | user key text atMs handoff hidden =>
    dsimp only
    cases handoff
    · simp only [Bool.false_eq_true, if_false]
      rw [atop_finish]
      exact atop_push (.item _ none)
    · exact atop_push (.item _ none)
  | assistant key text => exact atop_push (.item _ none)
  | event key value resolved answers decision =>
    dsimp only
    split
    · exact atop_start ..
    · exact atop_result ..
    · rw [atop_asked]
      rcases scan.asked value with _ | index
      · exact atop_push (.item _ none)
      · rw [Option.map_some]
        exact @atop_setTool base { scan.push (.item (.event key value resolved answers decision) (some index))
          with attached := index :: scan.attached } later index _

theorem atop_step {item : Item} (h : ∀ stop ∈ later, item.key < stop) :
    (atop base scan later).step item = atop base (scan.step item) later := by
  unfold step
  rw [atop_pass h, atop_take]

theorem atop_steps : ∀ {items : List Item} {scan : ActivityScan},
    (∀ item ∈ items, ∀ stop ∈ later, item.key < stop) →
    items.foldl step (atop base scan later) = atop base (items.foldl step scan) later
  | [], _, _ => rfl
  | item :: rest, scan, h => by
    rw [List.foldl_cons, List.foldl_cons, atop_step (h item List.mem_cons_self)]
    exact atop_steps fun i hi => h i (List.mem_cons_of_mem _ hi)

/-- States that are passed, and states that are not reached. -/
theorem pass_between {key : ℕ} {passed later : List ℕ} (hterm : scan.terminal = passed ++ later)
    (hpassed : ∀ stop ∈ passed, stop ≤ key) (hlater : ∀ stop ∈ later, key < stop) :
    scan.pass key = if passed = [] then scan else { scan.finish with terminal := later } := by
  unfold pass
  rw [hterm]
  rcases passed with _ | ⟨stop, rest⟩
  · rcases later with _ | ⟨next, more⟩
    · rfl
    · have hnext : ¬next ≤ key := not_le.2 (hlater next List.mem_cons_self)
      simp [hnext]
  · have hstop := hpassed stop List.mem_cons_self
    have hdrop : (stop :: rest ++ later).dropWhile (· ≤ key) = later := by
      rw [List.dropWhile_append_of_pos fun s hs => decide_eq_true (hpassed s hs)]
      rcases later with _ | ⟨next, more⟩
      · rfl
      · rw [List.dropWhile_cons_of_neg]
        simpa using hlater next List.mem_cons_self
    rw [hdrop]
    simp [hstop]

/-- A user's message begins a loop of its own. -/
theorem step_user {key atMs : ℕ} {text : String} {hidden : Bool} {passed stops later : List ℕ}
    (hterm : scan.terminal = passed ++ (stops ++ later)) (hpassed : ∀ stop ∈ passed, stop ≤ key)
    (hstops : ∀ stop ∈ stops, key < stop) (hlater : ∀ stop ∈ later, key < stop) :
    scan.step (.user key text atMs false hidden) =
      atop scan.finish (step { terminal := stops } (.user key text atMs false hidden)) later := by
  have hstart : step { terminal := stops } (.user key text atMs false hidden) =
      { rows := [.item (.user key text atMs false hidden) none], terminal := stops } := by
    have hpass := @pass_between { terminal := stops } key [] stops rfl (by simp) hstops
    rw [if_pos rfl] at hpass
    unfold step
    rw [show (Item.user key text atMs false hidden).key = key from rfl, hpass]
    rfl
  have hpass := pass_between hterm hpassed fun stop hstop =>
    (List.mem_append.1 hstop).elim (hstops stop) (hlater stop)
  rw [hstart]
  unfold step
  rw [show (Item.user key text atMs false hidden).key = key from rfl, hpass]
  split_ifs with hnone
  · subst hnone
    rw [List.nil_append] at hterm
    unfold take atop push
    simp [finish_eq, hterm, ActivityRow.shift]
  · unfold take atop push
    simp [finish_eq, ended, ActivityRow.shift]

/-! ### The rows -/

/-- What the end of `activityTranscript` makes of the rows. -/
def grouped (scan : ActivityScan) : List ActivityItem :=
  (scan.rows.reverse.foldl (groupRow scan.tools scan.attached) []).reverse

/-- What the loop refers to are calls it made. -/
structure Bounded (scan : ActivityScan) : Prop where
  rows : ∀ row ∈ scan.rows, ∀ i ∈ row.call?, i < scan.tools.length
  attached : ∀ i ∈ scan.attached, i < scan.tools.length
  pending : ∀ p ∈ scan.pending, p.2 < scan.tools.length

theorem length_ended : ∀ (indices : List ℕ) (tools : List ToolActivity),
    (ended indices tools).length = tools.length
  | [], _ => rfl
  | _ :: rest, _ => (length_ended rest _).trans (List.length_modify ..)

theorem Bounded.finish (h : Bounded scan) : Bounded scan.finish := by
  rw [finish_eq]
  exact ⟨fun row hrow i hi => (length_ended ..).symm ▸ h.rows row hrow i hi,
    fun i hi => (length_ended ..).symm ▸ h.attached i hi, fun p hp => by cases hp⟩

theorem Bounded.pass (h : Bounded scan) (key : ℕ) : Bounded (scan.pass key) := by
  unfold ActivityScan.pass
  split_ifs
  · exact ⟨h.finish.rows, h.finish.attached, h.finish.pending⟩
  · exact h

theorem Bounded.push (h : Bounded scan) {row : ActivityRow} (hrow : ∀ i ∈ row.call?, i < scan.tools.length) :
    Bounded (scan.push row) where
  rows := fun r hr => (List.mem_cons.1 hr).elim (fun heq => heq ▸ hrow) (h.rows r)
  attached := h.attached
  pending := h.pending

theorem Bounded.setTool (h : Bounded scan) (index : ℕ) (f : ToolActivity → ToolActivity) :
    Bounded (scan.setTool index f) := by
  have hlen : (scan.setTool index f).tools.length = scan.tools.length := List.length_modify ..
  exact ⟨fun row hrow i hi => hlen ▸ h.rows row hrow i hi, fun i hi => hlen ▸ h.attached i hi,
    fun p hp => hlen ▸ h.pending p hp⟩

theorem Bounded.pushTool (h : Bounded scan) (tool : ToolActivity) : Bounded (scan.pushTool tool) := by
  have hlen : (scan.pushTool tool).tools.length = scan.tools.length + 1 := by simp [ActivityScan.pushTool]
  refine ⟨fun row hrow i hi => ?_, fun i hi => ?_, fun p hp => ?_⟩
  · rw [hlen]
    rcases List.mem_cons.1 hrow with rfl | hrow
    · obtain rfl := Option.some.inj hi
      omega
    · have := h.rows row hrow i hi
      omega
  · have := h.attached i hi
    omega
  · have := h.pending p hp
    omega

theorem asked_mem {value : EventKind} {i : ℕ} (h : scan.asked value = some i) :
    ∃ id, (id, i) ∈ scan.pending := by
  unfold asked at h
  split at h
  · split_ifs at h
    exact ⟨_, Assoc.mem_of_lookup h⟩
  · split_ifs at h
    exact ⟨_, Assoc.mem_of_lookup h⟩
  · cases h

theorem Bounded.result (h : Bounded scan) (key : ℕ) (id : String) (content : Json) (isError : Bool) :
    Bounded (scan.result key id content isError) := by
  have hcore : Bounded (scan.resulted key id content isError) := by
    unfold resulted
    split
    · rename_i index _
      have hset := h.setTool index (given content isError)
      exact ⟨hset.rows, hset.attached, fun p hp => hset.pending p (Assoc.mem_drop.1 hp).1⟩
    · exact h.pushTool _
  rw [result_eq, withImages]
  split_ifs
  · exact hcore
  · exact hcore.push fun i hi => by cases hi

theorem Bounded.start (h : Bounded scan) (key : ℕ) (id name : String) (input : Json) :
    Bounded (scan.start key id name input) := by
  have hpush := h.pushTool { key, name, input := some input, status := .pending }
  refine ⟨hpush.rows, hpush.attached, fun p hp => ?_⟩
  unfold ActivityScan.start at hp
  dsimp only at hp
  split_ifs at hp
  · exact hpush.pending p hp
  · rcases Assoc.mem_put.1 hp with ⟨hp, -⟩ | rfl
    · exact hpush.pending p hp
    · show scan.tools.length < (scan.tools ++ [_]).length
      simp

theorem Bounded.take (h : Bounded scan) (item : Item) : Bounded (scan.take item) := by
  have hpush : ∀ {s : ActivityScan} (i : Item), Bounded s → Bounded (s.push (.item i none)) :=
    fun i hs => hs.push fun _ hi => by cases hi
  unfold ActivityScan.take
  cases item with
  | user key text atMs handoff hidden =>
    refine hpush _ ?_
    split_ifs
    · exact h
    · exact h.finish
  | assistant key text => exact hpush _ h
  | event key value resolved answers decision =>
    dsimp only
    split
    · exact h.start ..
    · exact h.result ..
    · split
      · rename_i index hasked
        obtain ⟨id, hid⟩ := asked_mem hasked
        have hindex := h.pending _ hid
        have hrow : ∀ i ∈ (ActivityRow.item (.event key value resolved answers decision) (some index)).call?,
            i < scan.tools.length := fun i hi => Option.some.inj hi ▸ hindex
        have hattached : Bounded
            { scan.push (.item (.event key value resolved answers decision) (some index)) with
              attached := index :: scan.attached } :=
          ⟨(h.push hrow).rows,
            fun i hi => (List.mem_cons.1 hi).elim (fun heq => heq ▸ hindex) (h.attached i), h.pending⟩
        exact hattached.setTool index _
      · exact hpush _ h

theorem Bounded.steps : ∀ (items : List Item) {scan : ActivityScan}, Bounded scan →
    Bounded (items.foldl step scan)
  | [], _, h => h
  | item :: rest, _, h => Bounded.steps rest ((h.pass item.key).take item)

theorem bounded_start (stops : List ℕ) : Bounded { terminal := stops } :=
  ⟨fun _ h => (by cases h), fun _ h => (by cases h), fun _ h => (by cases h)⟩

theorem Bounded.atop (h : Bounded base) (hscan : Bounded scan) : Bounded (atop base scan later) := by
  have hlen : (ActivityScan.atop base scan later).tools.length = base.tools.length + scan.tools.length :=
    List.length_append
  have hleft : ∀ {i : ℕ}, i < base.tools.length → i < (ActivityScan.atop base scan later).tools.length := by
    intro i hi
    omega
  have hright : ∀ {i : ℕ}, i < scan.tools.length →
      base.tools.length + i < (ActivityScan.atop base scan later).tools.length := by
    intro i hi
    omega
  refine ⟨fun row hrow i hi => ?_, fun i hi => ?_, fun p hp => ?_⟩
  · rcases List.mem_append.1 hrow with hrow | hrow
    · obtain ⟨r, hr, rfl⟩ := List.mem_map.1 hrow
      have hcall : (r.shift base.tools.length).call? = r.call?.map (base.tools.length + ·) := by
        cases r <;> rfl
      rw [hcall] at hi
      obtain ⟨j, hj, rfl⟩ := Option.map_eq_some_iff.1 hi
      exact hright (hscan.rows r hr j hj)
    · exact hleft (h.rows row hrow i hi)
  · rcases List.mem_append.1 hi with hi | hi
    · obtain ⟨j, hj, rfl⟩ := List.mem_map.1 hi
      exact hright (hscan.attached j hj)
    · exact hleft (h.attached i hi)
  · obtain ⟨q, hq, rfl⟩ := List.mem_map.1 hp
    exact hright (hscan.pending q hq)

/-- A row is grouped with what is known of the calls before. -/
theorem groupRow_left (h : Bounded base) (grouped : List ActivityItem) {row : ActivityRow}
    (hrow : row ∈ base.rows) (later : List ℕ) :
    groupRow (atop base scan later).tools (atop base scan later).attached grouped row =
      groupRow base.tools base.attached grouped row := by
  have hget : ∀ i ∈ row.call?, (base.tools ++ scan.tools)[i]? = base.tools[i]? := fun i hi =>
    List.getElem?_append_left (h.rows row hrow i hi)
  have hmem : ∀ i ∈ row.call?, i ∈ scan.attached.map (base.tools.length + ·) ++ base.attached ↔
      i ∈ base.attached := by
    intro i hi
    have hlt := h.rows row hrow i hi
    rw [List.mem_append, or_iff_right]
    rintro hmem
    obtain ⟨j, -, rfl⟩ := List.mem_map.1 hmem
    omega
  unfold atop
  cases row with
  | item i approvalTool =>
    cases approvalTool with
    | none => rfl
    | some index =>
      unfold groupRow
      dsimp only
      rw [Option.bind_some, Option.bind_some, hget index rfl]
  | tool index =>
    unfold groupRow
    dsimp only
    rw [hget index rfl, if_congr (hmem index rfl) rfl rfl]
  | toolImages key images => rfl

/-- A row of the loop on top is grouped as in that loop alone. -/
theorem groupRow_right (h : Bounded base) (grouped : List ActivityItem) (row : ActivityRow)
    (later : List ℕ) :
    groupRow (atop base scan later).tools (atop base scan later).attached grouped
        (row.shift base.tools.length) = groupRow scan.tools scan.attached grouped row := by
  have hget : ∀ i, (base.tools ++ scan.tools)[base.tools.length + i]? = scan.tools[i]? := by
    intro i
    rw [List.getElem?_append_right (by omega)]
    simp
  have hmem : ∀ i, base.tools.length + i ∈ scan.attached.map (base.tools.length + ·) ++ base.attached ↔
      i ∈ scan.attached := by
    intro i
    have hbase : base.tools.length + i ∉ base.attached := fun hmem => by
      have := h.attached _ hmem
      omega
    simp [hbase]
  unfold atop
  cases row with
  | item i approvalTool =>
    cases approvalTool with
    | none => rfl
    | some index =>
      unfold groupRow ActivityRow.shift
      simp only [Option.map_some, Option.bind_some, hget]
  | tool index =>
    unfold groupRow ActivityRow.shift
    simp only [hget, hmem]
  | toolImages key images => rfl

theorem groupRow_append {tools : List ToolActivity} {attached : List ℕ} {top below : List ActivityItem}
    (h : top ≠ []) (row : ActivityRow) :
    groupRow tools attached (top ++ below) row = groupRow tools attached top row ++ below ∧
      groupRow tools attached top row ≠ [] := by
  rcases top with _ | ⟨first, rest⟩
  · exact absurd rfl h
  · cases row with
    | item i approvalTool => exact ⟨rfl, by simp [groupRow]⟩
    | toolImages key images => exact ⟨rfl, by simp [groupRow]⟩
    | tool index =>
      unfold groupRow
      dsimp only
      split_ifs
      · exact ⟨rfl, by simp⟩
      · cases tools[index]? with
        | none => exact ⟨rfl, by simp⟩
        | some call =>
          dsimp only
          split_ifs
          · cases first with
            | tools key group => exact ⟨rfl, by simp⟩
            | tool last =>
              simp only [List.cons_append]
              split_ifs <;> exact ⟨rfl, by simp⟩
            | item i approvalTool => exact ⟨rfl, by simp⟩
            | toolImages key images => exact ⟨rfl, by simp⟩
          · exact ⟨rfl, by simp⟩

theorem groupRows_append {tools : List ToolActivity} {attached : List ℕ} :
    ∀ {rows : List ActivityRow} {top below : List ActivityItem}, top ≠ [] →
      rows.foldl (groupRow tools attached) (top ++ below) =
        rows.foldl (groupRow tools attached) top ++ below
  | [], _, _, _ => rfl
  | row :: rest, top, below, h => by
    obtain ⟨heq, hne⟩ := @groupRow_append tools attached top below h row
    rw [List.foldl_cons, heq, groupRows_append hne, List.foldl_cons]

/-- The rows of a loop on top stand behind those before, when an item is the first of them. -/
theorem grouped_atop (h : Bounded base) (later : List ℕ)
    (hfirst : base.rows = [] ∨ ∃ item tool, scan.rows.getLast? = some (.item item tool)) :
    (atop base scan later).grouped = base.grouped ++ scan.grouped := by
  have hleft : ∀ {rows : List ActivityRow} {top : List ActivityItem}, (∀ row ∈ rows, row ∈ base.rows) →
      rows.foldl (groupRow (atop base scan later).tools (atop base scan later).attached) top =
        rows.foldl (groupRow base.tools base.attached) top := by
    intro rows
    induction rows with
    | nil => intro top _; rfl
    | cons row rest ih =>
      intro top hrows
      rw [List.foldl_cons, groupRow_left h top (hrows row List.mem_cons_self) later,
        ih fun r hr => hrows r (List.mem_cons_of_mem _ hr), List.foldl_cons]
  have hright : ∀ (rows : List ActivityRow) (top : List ActivityItem),
      (rows.map (.shift base.tools.length)).foldl
          (groupRow (atop base scan later).tools (atop base scan later).attached) top =
        rows.foldl (groupRow scan.tools scan.attached) top := by
    intro rows top
    rw [List.foldl_map]
    exact congrArg (fun f => List.foldl f top rows) (funext₂ fun g row => groupRow_right h g row later)
  have hrows : (atop base scan later).rows.reverse =
      base.rows.reverse ++ scan.rows.reverse.map (.shift base.tools.length) := by
    show (scan.rows.map _ ++ base.rows).reverse = _
    rw [List.reverse_append, List.map_reverse]
  have hbehind : ∀ top, scan.rows.reverse.foldl (groupRow scan.tools scan.attached) top =
      scan.rows.reverse.foldl (groupRow scan.tools scan.attached) [] ++ top ∨ base.rows = [] := by
    intro top
    rcases hfirst with hnone | ⟨item, tool, hlast⟩
    · exact .inr hnone
    · rw [← List.head?_reverse] at hlast
      rcases hrev : scan.rows.reverse with _ | ⟨first, rest⟩
      · rw [hrev] at hlast
        cases hlast
      · rw [hrev] at hlast
        obtain rfl := Option.some.inj hlast
        exact .inl (@groupRows_append _ _ rest [_] top (by simp))
  unfold grouped
  rw [hrows, List.foldl_append, hleft fun row hrow => List.mem_reverse.1 hrow, hright]
  rcases hbehind (base.rows.reverse.foldl (groupRow base.tools base.attached) []) with h | h
  · rw [h, List.reverse_append]
  · rw [h]
    rfl

/-! ### One group after another -/

/-- The loop over the items of a part of a log with its states. -/
def scanOf (items : List Item) (stops : List ℕ) : ActivityScan := items.foldl step { terminal := stops }

/-- What ends the loop. -/
def settled (scan : ActivityScan) : ActivityScan := if scan.terminal ≠ [] then scan.finish else scan

theorem rows_finish (scan : ActivityScan) : scan.finish.rows = scan.rows := by rw [finish_eq]

/-- Rows are put on those before. -/
theorem take_rows (scan : ActivityScan) (item : Item) : ∃ new, (scan.take item).rows = new ++ scan.rows := by
  unfold take
  cases item with
  | user key text atMs handoff hidden =>
    cases handoff
    · exact ⟨[_], congrArg (_ :: ·) (rows_finish scan)⟩
    · exact ⟨[_], rfl⟩
  | assistant key text => exact ⟨[_], rfl⟩
  | event key value resolved answers decision =>
    dsimp only
    split
    · exact ⟨[_], rfl⟩
    · rename_i id content isError
      have hcore : ∃ new, (scan.resulted key id content isError).rows = new ++ scan.rows := by
        unfold resulted
        split
        · exact ⟨[], rfl⟩
        · exact ⟨[_], rfl⟩
      obtain ⟨new, hnew⟩ := hcore
      rw [result_eq, withImages]
      split_ifs
      · exact ⟨new, hnew⟩
      · exact ⟨_ :: new, congrArg (_ :: ·) hnew⟩
    · split <;> exact ⟨[_], rfl⟩

theorem rows_pass (scan : ActivityScan) (key : ℕ) : (scan.pass key).rows = scan.rows := by
  unfold pass
  split_ifs
  · exact rows_finish scan
  · rfl

theorem steps_rows : ∀ (items : List Item) (scan : ActivityScan),
    ∃ new, (items.foldl step scan).rows = new ++ scan.rows
  | [], scan => ⟨[], rfl⟩
  | item :: rest, scan => by
    obtain ⟨new, hnew⟩ := steps_rows rest (scan.step item)
    obtain ⟨first, hfirst⟩ := take_rows (scan.pass item.key) item
    refine ⟨new ++ first, ?_⟩
    rw [List.foldl_cons, hnew, List.append_assoc]
    exact congrArg (new ++ ·) (hfirst.trans (congrArg (first ++ ·) (rows_pass scan item.key)))

theorem take_terminal (scan : ActivityScan) (item : Item) : (scan.take item).terminal = scan.terminal := by
  unfold take
  cases item with
  | user key text atMs handoff hidden =>
    cases handoff
    · show scan.finish.terminal = scan.terminal
      rw [finish_eq]
    · rfl
  | assistant key text => rfl
  | event key value resolved answers decision =>
    dsimp only
    split
    · rfl
    · rename_i id content isError
      have hcore : (scan.resulted key id content isError).terminal = scan.terminal := by
        unfold resulted
        split <;> rfl
      rw [result_eq, withImages]
      split_ifs <;> exact hcore
    · split <;> rfl

theorem pass_terminal (scan : ActivityScan) (key : ℕ) :
    (scan.pass key).terminal = scan.terminal.dropWhile (· ≤ key) := by
  unfold pass
  rcases hterm : scan.terminal with _ | ⟨stop, rest⟩
  · exact hterm
  · by_cases h : stop ≤ key
    · simp [h]
    · simp [h, hterm]

/-- The states to come are among those there were. -/
theorem steps_terminal : ∀ (items : List Item) {scan : ActivityScan} {stop : ℕ},
    stop ∈ (items.foldl step scan).terminal → stop ∈ scan.terminal
  | [], _, _, h => h
  | item :: rest, scan, stop, h => by
    have hstep := steps_terminal rest h
    rw [step, take_terminal, pass_terminal] at hstep
    exact (List.dropWhile_suffix _).subset hstep

/-- A part of a log that begins with a user's message. -/
def Begins (part : List Item × List ℕ) : Prop :=
  ∃ key text atMs hidden rest, part.1 = .user key text atMs false hidden :: rest ∧
    ∀ stop ∈ part.2, key < stop

/-- Parts in their order. -/
def Before (part next : List Item × List ℕ) : Prop :=
  (∀ i ∈ part.1, ∀ stop ∈ next.2, i.key < stop) ∧ ∀ stop ∈ part.2, ∀ i ∈ next.1, stop ≤ i.key

/-- The rows of a part, and of those behind it: where another follows, what is open is ended. -/
def groupsFrom : ActivityScan → List (List Item × List ℕ) → List (List ActivityItem)
  | scan, [] => [scan.settled.grouped]
  | scan, part :: rest => scan.finish.grouped :: groupsFrom (scanOf part.1 part.2) rest

theorem getLast_scanOf {part : List Item × List ℕ} (h : Begins part) :
    ∃ item tool, (scanOf part.1 part.2).rows.getLast? = some (.item item tool) := by
  obtain ⟨key, text, atMs, hidden, rest, hitems, -⟩ := h
  have hfirst : (step { terminal := part.2 } (.user key text atMs false hidden)).rows =
      [.item (.user key text atMs false hidden) none] := by
    show _ :: (pass { terminal := part.2 } _).finish.rows = _
    rw [rows_finish, rows_pass]
  obtain ⟨new, hnew⟩ := steps_rows rest (step { terminal := part.2 } (.user key text atMs false hidden))
  refine ⟨.user key text atMs false hidden, none, ?_⟩
  rw [scanOf, hitems, List.foldl_cons, hnew, hfirst]
  simp

theorem settled_atop (h : Bounded base) (hscan : base.rows = [] ∨
    ∃ item tool, scan.rows.getLast? = some (.item item tool)) :
    (atop base scan []).settled.grouped = base.grouped ++ scan.settled.grouped := by
  unfold settled
  rw [show (atop base scan []).terminal = scan.terminal from List.append_nil _]
  split_ifs
  · rw [atop_finish]
    exact grouped_atop h [] ((rows_finish scan).symm ▸ hscan)
  · exact grouped_atop h [] hscan

theorem steps_parts : ∀ {parts : List (List Item × List ℕ)} {base scan : ActivityScan},
    Bounded base → Bounded scan →
    (base.rows = [] ∨ ∃ item tool, scan.rows.getLast? = some (.item item tool)) →
    (∀ part ∈ parts, Begins part) → parts.Pairwise Before →
    (∀ part ∈ parts, ∀ stop ∈ scan.terminal, ∀ i ∈ part.1, stop ≤ i.key) →
    ((parts.flatMap (·.1)).foldl step (atop base scan (parts.flatMap (·.2)))).settled.grouped =
      base.grouped ++ (groupsFrom scan parts).flatten
  | [], base, scan, hbase, _, hfirst, _, _, _ => by
    simpa [groupsFrom] using settled_atop hbase hfirst
  | part :: rest, base, scan, hbase, hscan, hfirst, hbegins, hordered, hpassed => by
    have hpart := hbegins part List.mem_cons_self
    have hlater : ∀ i ∈ part.1, ∀ stop ∈ rest.flatMap (·.2), i.key < stop := by
      intro i hi stop hstop
      obtain ⟨next, hnext, hstop⟩ := List.mem_flatMap.1 hstop
      exact ((List.pairwise_cons.1 hordered).1 next hnext).1 i hi stop hstop
    have hfinish : Bounded (atop base scan.finish (part.2 ++ rest.flatMap (·.2))) := hbase.atop hscan.finish
    have hnext : part.1.foldl step (atop base scan (part.2 ++ rest.flatMap (·.2))) =
        atop (atop base scan.finish (part.2 ++ rest.flatMap (·.2))) (scanOf part.1 part.2)
          (rest.flatMap (·.2)) := by
      obtain ⟨key, text, atMs, hidden, items, hitems, hstops⟩ := hpart
      have hkey := hlater (.user key text atMs false hidden) (hitems ▸ List.mem_cons_self)
      have hpast : ∀ stop ∈ scan.terminal, stop ≤ key := fun stop hstop =>
        hpassed part List.mem_cons_self stop hstop (.user key text atMs false hidden)
          (hitems ▸ List.mem_cons_self)
      rw [scanOf, hitems, List.foldl_cons, List.foldl_cons, step_user rfl hpast hstops hkey, atop_finish]
      exact atop_steps fun i hi => hlater i (hitems ▸ List.mem_cons_of_mem _ hi)
    have hrest := @steps_parts rest _ (scanOf part.1 part.2) hfinish
      (Bounded.steps part.1 (bounded_start part.2)) (.inr (getLast_scanOf hpart)) (fun p hp => hbegins p (List.mem_cons_of_mem _ hp))
      (List.pairwise_cons.1 hordered).2 (fun p hp stop hstop => by
        have hmem := steps_terminal part.1 hstop
        exact ((List.pairwise_cons.1 hordered).1 p hp).2 stop hmem)
    rw [List.flatMap_cons, List.flatMap_cons, List.foldl_append, hnext]
    refine hrest.trans ?_
    rw [grouped_atop hbase _ ((rows_finish scan).symm ▸ hfirst), groupsFrom, List.flatten_cons,
      List.append_assoc]

end ActivityScan

/-! ### The log -/

open ActivityScan (scanOf groupsFrom)

/-- The states in which nothing is pending. -/
def stopsOf (part : List Event) : List ℕ :=
  part.filterMap fun e => if e.event.terminal then some e.seq else none

theorem mem_stopsOf {part : List Event} {stop : ℕ} (h : stop ∈ stopsOf part) :
    ∃ e ∈ part, e.seq = stop ∧ e.event.terminal = true := by
  obtain ⟨e, he, hstop⟩ := List.mem_filterMap.1 h
  split_ifs at hstop with hterm
  exact ⟨e, he, Option.some.inj hstop, hterm⟩

/-- The items and the states of each group. -/
def partsFrom (m : TranscriptMaps) : List Event → List (List Event) → List (List Item × List ℕ)
  | _, [] => []
  | before, group :: rest => (itemsOf m before group, stopsOf group) :: partsFrom m (before ++ group) rest

theorem mem_partsFrom {m : TranscriptMaps} : ∀ {groups : List (List Event)} {before : List Event}
    {part : List Item × List ℕ}, part ∈ partsFrom m before groups →
    ∃ group ∈ groups, ∃ front, part = (itemsOf m front group, stopsOf group)
  | group :: rest, before, part, h => by
    rcases List.mem_cons.1 h with rfl | h
    · exact ⟨group, List.mem_cons_self, before, rfl⟩
    · obtain ⟨g, hg, hpart⟩ := mem_partsFrom h
      exact ⟨g, List.mem_cons_of_mem _ hg, hpart⟩

theorem partsFrom_items {m : TranscriptMaps} : ∀ {groups : List (List Event)} {before : List Event},
    (partsFrom m before groups).flatMap (·.1) = (groupItems m before groups).flatten
  | [], _ => rfl
  | group :: rest, before => by
    rw [partsFrom, List.flatMap_cons, partsFrom_items, groupItems, List.flatten_cons]

theorem partsFrom_stops {m : TranscriptMaps} : ∀ {groups : List (List Event)} {before : List Event},
    (partsFrom m before groups).flatMap (·.2) = stopsOf groups.flatten
  | [], _ => rfl
  | group :: rest, before => by
    rw [partsFrom, List.flatMap_cons, partsFrom_stops, List.flatten_cons, stopsOf, stopsOf, stopsOf,
      List.filterMap_append]

theorem partsFrom_ordered {m : TranscriptMaps} : ∀ {groups : List (List Event)} {before : List Event},
    groups.flatten.Pairwise (·.seq < ·.seq) → (partsFrom m before groups).Pairwise ActivityScan.Before
  | [], _, _ => List.Pairwise.nil
  | group :: rest, before, h => by
    rw [List.flatten_cons, List.pairwise_append] at h
    obtain ⟨-, hrest, hlt⟩ := h
    refine List.pairwise_cons.2 ⟨fun part hpart => ?_, partsFrom_ordered hrest⟩
    obtain ⟨g, hg, front, rfl⟩ := mem_partsFrom hpart
    have hlater : ∀ e ∈ group, ∀ f ∈ g, e.seq < f.seq := fun e he f hf =>
      hlt e he f (List.mem_flatten_of_mem hg hf)
    constructor
    · intro i hi stop hstop
      obtain ⟨e, he, hkey⟩ := itemsOf_key i hi
      obtain ⟨f, hf, rfl, -⟩ := mem_stopsOf hstop
      exact hkey ▸ hlater e he f hf
    · intro stop hstop i hi
      obtain ⟨e, he, rfl, -⟩ := mem_stopsOf hstop
      obtain ⟨f, hf, hkey⟩ := itemsOf_key i hi
      exact hkey ▸ (hlater e he f hf).le

/-- The items of a group that begins with a user's message begin with it. -/
theorem begins_of_head {m : TranscriptMaps} {before group : List Event} (hne : group ≠ [])
    (hhead : ∀ e ∈ group.head?, e.event.isUser = true) (hlog : group.Pairwise (·.seq < ·.seq)) :
    ActivityScan.Begins (itemsOf m before group, stopsOf group) := by
  rcases group with _ | ⟨e, rest⟩
  · exact absurd rfl hne
  · have huser := hhead e rfl
    obtain ⟨text, hidden, more, hitems⟩ := @itemsOf_user m before rest e huser
    refine ⟨e.seq, text, e.atMs, hidden, more, hitems, fun stop hstop => ?_⟩
    obtain ⟨f, hf, rfl, hterm⟩ := mem_stopsOf hstop
    rcases List.mem_cons.1 hf with rfl | hf
    · revert huser hterm
      cases f.event <;> intro huser hterm <;> first | cases huser | cases hterm
    · exact (List.pairwise_cons.1 hlog).1 f hf

theorem partsFrom_begin {m : TranscriptMaps} {groups : List (List Event)} {before : List Event}
    (hnonempty : [] ∉ groups) (hheads : ∀ group ∈ groups, ∀ e ∈ group.head?, e.event.isUser = true)
    (hlog : groups.flatten.Pairwise (·.seq < ·.seq)) :
    ∀ part ∈ partsFrom m before groups, ActivityScan.Begins part := by
  intro part hpart
  obtain ⟨g, hg, front, rfl⟩ := mem_partsFrom hpart
  exact begins_of_head (fun hnil => hnonempty (hnil ▸ hg)) (hheads g hg)
    (hlog.sublist (List.sublist_flatten_of_mem hg))

/-- The rows of each group within a log. -/
def rowsWithin (m : TranscriptMaps) (groups : List (List Event)) : List (List ActivityItem) :=
  match partsFrom m [] groups with
  | [] => []
  | part :: rest => groupsFrom (scanOf part.1 part.2) rest

theorem rowsWithin_flatten {m : TranscriptMaps} {groups : List (List Event)} (hcut : Cut groups)
    (hlog : groups.flatten.Pairwise (·.seq < ·.seq)) :
    (ActivityScan.settled ((groupItems m [] groups).flatten.foldl ActivityScan.step
      { terminal := stopsOf groups.flatten })).grouped = (rowsWithin m groups).flatten := by
  rcases groups with _ | ⟨group, rest⟩
  · rfl
  · have hordered := @partsFrom_ordered m _ [] hlog
    rw [partsFrom, List.pairwise_cons] at hordered
    have hbegins := @partsFrom_begin m rest ([] ++ group) (fun h => hcut.nonempty (List.mem_cons_of_mem _ h))
      hcut.heads (by
        rw [List.flatten_cons] at hlog
        exact (List.pairwise_append.1 hlog).2.1)
    have hlater : ∀ i ∈ itemsOf m [] group, ∀ stop ∈ (partsFrom m ([] ++ group) rest).flatMap (·.2),
        i.key < stop := by
      intro i hi stop hstop
      obtain ⟨part, hpart, hstop⟩ := List.mem_flatMap.1 hstop
      exact (hordered.1 part hpart).1 i hi stop hstop
    have hfirst : (itemsOf m [] group).foldl ActivityScan.step { terminal := stopsOf (group :: rest).flatten } =
        ActivityScan.atop {} (scanOf (itemsOf m [] group) (stopsOf group))
          ((partsFrom m ([] ++ group) rest).flatMap (·.2)) := by
      rw [scanOf, ← ActivityScan.atop_steps hlater, partsFrom_stops, List.flatten_cons, stopsOf,
        List.filterMap_append]
      rfl
    have hparts := @ActivityScan.steps_parts (partsFrom m ([] ++ group) rest) {}
      (scanOf (itemsOf m [] group) (stopsOf group)) (ActivityScan.bounded_start [])
      (ActivityScan.Bounded.steps _ (ActivityScan.bounded_start _)) (.inl rfl) hbegins hordered.2
      fun part hpart stop hstop i hi =>
        (hordered.1 part hpart).2 stop (ActivityScan.steps_terminal _ hstop) i hi
    have hitems : (groupItems m [] (group :: rest)).flatten =
        itemsOf m [] group ++ (groupItems m ([] ++ group) rest).flatten := rfl
    rw [hitems, List.foldl_append, hfirst, ← partsFrom_items]
    exact hparts

/-- The rows of a log are those of its groups. -/
theorem activity_groups {log : List Event} (hlog : log.Pairwise (·.seq < ·.seq))
    (receipts : List ((String × String) × String × ℕ)) :
    activityOf receipts log =
      (rowsWithin (.ofEvents receipts log) (turnGroups log)).flatten := by
  have hflat := turnGroups_flatten log
  have hscan : activityOf receipts log = (ActivityScan.settled ((transcript log receipts).foldl
      ActivityScan.step { terminal := stopsOf log })).grouped := rfl
  have hrows := @rowsWithin_flatten (.ofEvents receipts log) _ (turnGroups_cut log) (hflat.symm ▸ hlog)
  rw [hflat] at hrows
  rw [hscan, transcript_groups, hrows]

/-- The rows of a group alone. -/
theorem activity_alone (group : List Event) (receipts : List ((String × String) × String × ℕ)) :
    activityOf receipts group =
      (scanOf (itemsOf (.ofEvents receipts group) [] group) (stopsOf group)).settled.grouped := by
  rw [← transcript_eq]
  rfl

end LatteWork
