import LatteWork.Server.ChildIndexing
import Mathlib.Tactic.Linarith

/-!
# The index of a transcript is its transcript

The cursor of a page stands behind a front of the file's lines, with the reports that reading this
front at once leaves unconfirmed, and what is cached is what reading it at once gives. A record's
events are numbered from the place of its line, so a line that is read twice has the same numbers.
-/

namespace LatteWork

open Fallible

section Parse

variable (svc : ChildServices) (task : ChildTask)

/-- All the lines at once. -/
def parseLines (lines : List (List UInt8)) :
    Except String ((ℕ × OrdMap String String) × List (ℕ × EventKind)) :=
  Transducer.run (parseRecord svc task) (0, OrdMap.empty) lines

variable {svc task}

theorem confirm_cases {handbacks handbacks' : OrdMap String String} {item : ChildItem}
    {entries : List (ℕ × EventKind)} (h : confirm handbacks item = .ok (handbacks', entries)) :
    ∃ report : Option String, entries =
      (item.seq, item.event) :: (report.map fun text => (item.seq + 1, .text text)).toList := by
  unfold confirm at h
  split at h
  · split_ifs at h
    · simp only [bind_eq_ok, Except.ok.injEq, Prod.mk.injEq] at h
      obtain ⟨_, -, -, rfl⟩ := h
      exact ⟨none, rfl⟩
    · obtain ⟨rfl, rfl⟩ := Prod.mk.inj (Except.ok.inj h)
      exact ⟨none, rfl⟩
  · obtain ⟨rfl, rfl⟩ := Prod.mk.inj (Except.ok.inj h)
    exact ⟨_, rfl⟩
  · obtain ⟨rfl, rfl⟩ := Prod.mk.inj (Except.ok.inj h)
    exact ⟨none, rfl⟩

theorem blockItem_seq {type : String} {base : ℕ} {block : Json × ℕ} {item : ChildItem}
    (h : blockItem svc task type base block = .ok (some item)) :
    item.seq = base * 4096 + block.2 * 2 := by
  unfold blockItem at h
  split at h
  · cases h
  · simp only [bind_eq_ok, Except.ok.injEq, Option.some.injEq] at h
    obtain ⟨_, -, rfl⟩ := h
    rfl

/-- A block gives nothing, its event, or its event and the report it confirms. -/
theorem parseBlock_cases {type : String} {base : ℕ} {handbacks handbacks' : OrdMap String String}
    {block : Json × ℕ} {entries : List (ℕ × EventKind)}
    (h : parseBlock svc task type base handbacks block = .ok (handbacks', entries)) :
    (∀ e ∈ entries, base * 4096 + block.2 * 2 ≤ e.1 ∧ e.1 ≤ base * 4096 + block.2 * 2 + 1) ∧
      entries.Pairwise (·.1 < ·.1) := by
  obtain ⟨found, hfound, h⟩ := bind_eq_ok.1 h
  rcases found with _ | item
  · obtain ⟨rfl, rfl⟩ := Prod.mk.inj (Except.ok.inj h)
    exact ⟨by simp, .nil⟩
  · obtain ⟨report, rfl⟩ := confirm_cases h
    rw [← blockItem_seq hfound]
    rcases report with _ | text <;> simp

/-- The blocks of a line are numbered within its place. -/
theorem recordBlocks_cases {base : ℕ} {line : List UInt8} {type : String} {blocks : List (Json × ℕ)}
    (h : recordBlocks svc task base line = .ok (type, blocks)) :
    blocks = [] ∨ base ≤ 2199023255551 ∧
      ∃ all : List Json, all.length ≤ 2048 ∧ blocks = all.zipIdx := by
  obtain ⟨value, -, h⟩ := bind_eq_ok.1 h
  split at h
  · exact .inl (Prod.mk.inj (Except.ok.inj h)).2.symm
  · split_ifs at h with hother
    · obtain ⟨_, -, h⟩ := bind_eq_ok.1 h
      split at h
      · exact .inl (Prod.mk.inj (Except.ok.inj h)).2.symm
      · rename_i all _
        simp only [bind_eq_ok, bailIf_eq_ok, not_or, not_lt, Except.ok.injEq, Prod.mk.injEq] at h
        obtain ⟨_, ⟨hlen, hbase⟩, -, rfl⟩ := h
        exact .inr ⟨hbase.trans (by decide), all, hlen, rfl⟩
    · exact .inl (Prod.mk.inj (Except.ok.inj h)).2.symm

/-- What the numbers of a stretch of entries are. -/
structure Numbers (low high : ℕ) (entries : List (ℕ × EventKind)) : Prop where
  sorted : entries.Pairwise (·.1 < ·.1)
  low : ∀ e ∈ entries, low ≤ e.1
  high : ∀ e ∈ entries, e.1 < high

theorem Numbers.append {a b c : ℕ} {l m : List (ℕ × EventKind)} (hl : Numbers a b l)
    (hm : Numbers b c m) (hab : a ≤ b) (hbc : b ≤ c) : Numbers a c (l ++ m) := by
  refine ⟨List.pairwise_append.2 ⟨hl.sorted, hm.sorted, fun x hx y hy => ?_⟩, fun e he => ?_,
    fun e he => ?_⟩
  · exact (hl.high x hx).trans_le (hm.low y hy)
  · rcases List.mem_append.1 he with he | he
    · exact hl.low e he
    · exact hab.trans (hm.low e he)
  · rcases List.mem_append.1 he with he | he
    · exact (hl.high e he).trans_le hbc
    · exact hm.high e he

theorem parseBlocks_numbers {type : String} {base : ℕ} :
    ∀ {all : List Json} {k : ℕ} {handbacks handbacks' : OrdMap String String}
      {entries : List (ℕ × EventKind)},
      Transducer.run (parseBlock svc task type base) handbacks (all.zipIdx k) =
          .ok (handbacks', entries) →
        Numbers (base * 4096 + k * 2) (base * 4096 + (k + all.length) * 2) entries
  | [], k, _, _, entries, h => by
    obtain ⟨-, rfl⟩ := Prod.mk.inj (Except.ok.inj h)
    exact ⟨.nil, by simp, by simp⟩
  | block :: all, k, _, _, entries, h => by
    rw [List.zipIdx_cons] at h
    obtain ⟨_, out, more, hblock, hrest, rfl⟩ := Transducer.run_cons_ok.1 h
    obtain ⟨hplace, hsorted⟩ := parseBlock_cases hblock
    have hmore := parseBlocks_numbers hrest
    have hout : Numbers (base * 4096 + k * 2) (base * 4096 + (k + 1) * 2) out :=
      ⟨hsorted, fun e he => (hplace e he).1, fun e he => by
        have := (hplace e he).2
        simp only at this
        omega⟩
    have hlen : k + (block :: all).length = k + 1 + all.length := by
      rw [List.length_cons]
      omega
    rw [hlen]
    exact hout.append hmore (by omega) (by omega)

/-- The numbers of a record are before those of the place behind its line. -/
theorem number_lt {e base k len : ℕ} (h : e < base * 4096 + (0 + k) * 2) (hk : k ≤ 2048)
    (hlen : 1 ≤ len) : e < (base + len) * 4096 := by
  linarith

/-- A whole number that an `f64` holds. -/
theorem number_le {e base k : ℕ} (h : e < base * 4096 + (0 + k) * 2) (hk : k ≤ 2048)
    (hbase : base ≤ 2199023255551) : e ≤ 2 ^ 53 - 1 := by
  have : e < 2 ^ 53 := by
    norm_num
    linarith
  omega

/-- A line moves the place behind it, and its numbers are between the two places. -/
theorem parseRecord_cases {state state' : ℕ × OrdMap String String} {line : List UInt8}
    {entries : List (ℕ × EventKind)} (hne : line ≠ [])
    (h : parseRecord svc task state line = .ok (state', entries)) :
    state'.1 = state.1 + line.length ∧ Numbers (state.1 * 4096) (state'.1 * 4096) entries ∧
      ∀ e ∈ entries, e.1 ≤ 2 ^ 53 - 1 := by
  obtain ⟨⟨type, blocks⟩, hblocks, h⟩ := bind_eq_ok.1 h
  obtain ⟨⟨handbacks, out⟩, hrun, h⟩ := bind_eq_ok.1 h
  obtain ⟨rfl, rfl⟩ := Prod.mk.inj (Except.ok.inj h)
  refine ⟨rfl, ?_⟩
  have hline : 1 ≤ line.length := List.length_pos_iff.2 hne
  rcases recordBlocks_cases hblocks with rfl | ⟨hbase, all, hall, rfl⟩
  · obtain ⟨-, rfl⟩ := Prod.mk.inj (Except.ok.inj hrun)
    exact ⟨⟨.nil, by simp, by simp⟩, by simp⟩
  · have hnumbers := parseBlocks_numbers hrun
    refine ⟨⟨hnumbers.sorted, fun e he => ?_, fun e he => ?_⟩, fun e he => ?_⟩
    · exact (Nat.le_add_right _ _).trans (hnumbers.low e he)
    · exact number_lt (hnumbers.high e he) hall hline
    · exact number_le (hnumbers.high e he) hall hbase

/-- The numbers of some lines are between the places of the first and of the end of the last. -/
theorem parse_numbers : ∀ {lines : List (List UInt8)} {state state' : ℕ × OrdMap String String}
    {entries : List (ℕ × EventKind)}, (∀ line ∈ lines, line ≠ []) →
      Transducer.run (parseRecord svc task) state lines = .ok (state', entries) →
        state'.1 = state.1 + lines.flatten.length ∧
          Numbers (state.1 * 4096) (state'.1 * 4096) entries ∧ ∀ e ∈ entries, e.1 ≤ 2 ^ 53 - 1
  | [], _, _, _, _, h => by
    obtain ⟨rfl, rfl⟩ := Prod.mk.inj (Except.ok.inj h)
    exact ⟨rfl, ⟨.nil, by simp, by simp⟩, by simp⟩
  | line :: lines, state, state', _, hne, h => by
    obtain ⟨u, out, more, hline, hrest, rfl⟩ := Transducer.run_cons_ok.1 h
    obtain ⟨hu, hout, hle⟩ := parseRecord_cases (hne line List.mem_cons_self) hline
    obtain ⟨hend, hmore, hle'⟩ := parse_numbers (fun l hl => hne l (List.mem_cons_of_mem _ hl)) hrest
    refine ⟨?_, hout.append hmore (by omega) (by omega), fun e he => ?_⟩
    · rw [hend, hu, List.flatten_cons, List.length_append]
      omega
    · exact (List.mem_append.1 he).elim (hle e) (hle' e)

end Parse

section Reports

variable (svc : ChildServices) (task : ChildTask)

/-- The blocks that say something. -/
def blockItems (type : String) (base : ℕ) : List (Json × ℕ) → Except String (List ChildItem)
  | [] => .ok []
  | block :: rest => do
    let found ← blockItem svc task type base block
    let more ← blockItems type base rest
    .ok (found.toList ++ more)

/-- What some lines say, block by block, the first line at `base`. -/
def childItems (base : ℕ) : List (List UInt8) → Except String (List ChildItem)
  | [] => .ok []
  | line :: rest => do
    let (type, blocks) ← recordBlocks svc task base line
    let items ← blockItems svc task type base blocks
    let more ← childItems (base + line.length) rest
    .ok (items ++ more)

/-- What an item says of the report under an id: that it is handed back, or that it is not waited
for any more. -/
def ChildItem.mark (id : String) (item : ChildItem) : Option (Option String) :=
  match item.event with
  | .tool called name input =>
    if name = "SubagentHandback" ∧ called = id then (input.index "message").str?.map some else none
  | .toolResult answered _ _ => if answered = id then some none else none
  | _ => none

/-- The report that waits for its result: the one handed back last, when no result came since. -/
def awaiting (before : List ChildItem) (id : String) : Option String :=
  (before.reverse.findSome? (ChildItem.mark id)).join

/-- The report that a result delivers. -/
def deliveredReport (before : List ChildItem) (item : ChildItem) : Option String :=
  match item.event with
  | .toolResult id _ _ => if item.delivered then awaiting before id else none
  | _ => none

/-- The events of some items, each report right behind the result that delivers it. -/
def withReports (before : List ChildItem) : List ChildItem → List (ℕ × EventKind)
  | [] => []
  | item :: rest =>
    (item.seq, item.event) ::
      ((deliveredReport before item).map fun text => (item.seq + 1, .text text)).toList ++
      withReports (before ++ [item]) rest

/-- The reports that are carried are those that wait. -/
def Awaits (handbacks : OrdMap String String) (before : List ChildItem) : Prop :=
  ∀ id, handbacks.find? id = awaiting before id

variable {svc task}

theorem awaiting_concat (before : List ChildItem) (item : ChildItem) (id : String) :
    awaiting (before ++ [item]) id = (item.mark id).elim (awaiting before id) fun r => r := by
  rw [awaiting, List.reverse_append, List.reverse_singleton, List.singleton_append,
    List.findSome?_cons]
  cases item.mark id <;> rfl

theorem awaits_of_mark {handbacks handbacks' : OrdMap String String} {before : List ChildItem}
    {item : ChildItem} (h : Awaits handbacks before)
    (hmark : ∀ id, handbacks'.find? id = (item.mark id).elim (handbacks.find? id) fun r => r) :
    Awaits handbacks' (before ++ [item]) := fun id => by
  rw [hmark, awaiting_concat, h id]

theorem confirm_awaits {handbacks handbacks' : OrdMap String String} {before : List ChildItem}
    {item : ChildItem} {entries : List (ℕ × EventKind)} (h : Awaits handbacks before)
    (hconfirm : confirm handbacks item = .ok (handbacks', entries)) :
    entries = (item.seq, item.event) ::
        ((deliveredReport before item).map fun text => (item.seq + 1, .text text)).toList ∧
      Awaits handbacks' (before ++ [item]) := by
  obtain ⟨seq, event, delivered⟩ := item
  unfold confirm at hconfirm
  cases event with
  | tool called name input =>
    simp only at hconfirm
    split_ifs at hconfirm with hname
    · simp only [bind_eq_ok, Except.ok.injEq, Prod.mk.injEq] at hconfirm
      obtain ⟨_, -, rfl, rfl⟩ := hconfirm
      refine ⟨rfl, awaits_of_mark h fun id => ?_⟩
      by_cases hid : called = id
      · cases hmessage : (input.index "message").str? <;>
          simp [ChildItem.mark, hname, hid, hmessage, OrdMap.find?_insert]
      · have hid' : id ≠ called := fun h => hid h.symm
        cases hmessage : (input.index "message").str? <;>
          simp [ChildItem.mark, hname, hid, hid', OrdMap.find?_insert]
    · obtain ⟨rfl, rfl⟩ := Prod.mk.inj (Except.ok.inj hconfirm)
      exact ⟨rfl, awaits_of_mark h fun id => by simp [ChildItem.mark, hname]⟩
  | toolResult answered content isError =>
    obtain ⟨rfl, rfl⟩ := Prod.mk.inj (Except.ok.inj hconfirm)
    refine ⟨?_, awaits_of_mark h fun id => ?_⟩
    · simp only [deliveredReport, h answered]
    · rw [OrdMap.find?_erase]
      by_cases hid : id = answered
      · simp [ChildItem.mark, hid]
      · have hid' : answered ≠ id := fun h => hid h.symm
        simp [ChildItem.mark, hid, hid']
  | _ =>
    obtain ⟨rfl, rfl⟩ := Prod.mk.inj (Except.ok.inj hconfirm)
    exact ⟨rfl, awaits_of_mark h fun id => rfl⟩

theorem withReports_append : ∀ (items before more : List ChildItem),
    withReports before (items ++ more) =
      withReports before items ++ withReports (before ++ items) more
  | [], before, more => by simp [withReports]
  | item :: items, before, more => by
    simp [withReports, withReports_append items, List.append_assoc]

theorem parseBlocks_reports {type : String} {base : ℕ} : ∀ {blocks : List (Json × ℕ)}
    {handbacks handbacks' : OrdMap String String} {before : List ChildItem}
    {entries : List (ℕ × EventKind)}, Awaits handbacks before →
      Transducer.run (parseBlock svc task type base) handbacks blocks = .ok (handbacks', entries) →
      ∃ items, blockItems svc task type base blocks = .ok items ∧
        entries = withReports before items ∧ Awaits handbacks' (before ++ items)
  | [], _, _, before, _, hawaits, h => by
    obtain ⟨rfl, rfl⟩ := Prod.mk.inj (Except.ok.inj h)
    exact ⟨[], rfl, rfl, by rwa [List.append_nil]⟩
  | block :: blocks, handbacks, _, before, _, hawaits, h => by
    obtain ⟨u, out, more, hblock, hrest, rfl⟩ := Transducer.run_cons_ok.1 h
    obtain ⟨found, hfound, hblock⟩ := bind_eq_ok.1 hblock
    rcases found with _ | item
    · obtain ⟨rfl, rfl⟩ := Prod.mk.inj (Except.ok.inj hblock)
      obtain ⟨items, hitems, hmore, hend⟩ := parseBlocks_reports hawaits hrest
      exact ⟨items, bind_eq_ok.2 ⟨none, hfound, bind_eq_ok.2 ⟨items, hitems, rfl⟩⟩, hmore, hend⟩
    · obtain ⟨hout, hnext⟩ := confirm_awaits hawaits hblock
      obtain ⟨items, hitems, hmore, hend⟩ := parseBlocks_reports hnext hrest
      refine ⟨item :: items, bind_eq_ok.2 ⟨some item, hfound, bind_eq_ok.2 ⟨items, hitems, rfl⟩⟩, ?_, ?_⟩
      · rw [hout, hmore]
        rfl
      · rwa [List.append_assoc] at hend

/-- Reading lines gives what they say, each report right behind the result that delivers it. -/
theorem parse_reports : ∀ {lines : List (List UInt8)} {state state' : ℕ × OrdMap String String}
    {before : List ChildItem} {entries : List (ℕ × EventKind)}, Awaits state.2 before →
      Transducer.run (parseRecord svc task) state lines = .ok (state', entries) →
      ∃ items, childItems svc task state.1 lines = .ok items ∧ entries = withReports before items
  | [], _, _, before, _, _, h => by
    obtain ⟨rfl, rfl⟩ := Prod.mk.inj (Except.ok.inj h)
    exact ⟨[], rfl, rfl⟩
  | line :: lines, state, _, before, _, hawaits, h => by
    obtain ⟨u, out, more, hline, hrest, rfl⟩ := Transducer.run_cons_ok.1 h
    obtain ⟨⟨type, blocks⟩, hblocks, hline⟩ := bind_eq_ok.1 hline
    obtain ⟨⟨handbacks, out'⟩, hrun, hline⟩ := bind_eq_ok.1 hline
    obtain ⟨rfl, rfl⟩ := Prod.mk.inj (Except.ok.inj hline)
    obtain ⟨items, hitems, rfl, hnext⟩ := parseBlocks_reports hawaits hrun
    have hnext : Awaits (state.1 + line.length, handbacks).2 (before ++ items) := hnext
    obtain ⟨items', hitems', rfl⟩ := parse_reports hnext hrest
    refine ⟨items ++ items', ?_, (withReports_append items before items').symm⟩
    exact bind_eq_ok.2 ⟨_, hblocks, bind_eq_ok.2 ⟨_, hitems, bind_eq_ok.2 ⟨_, hitems', rfl⟩⟩⟩

end Reports

namespace ChildHistories

variable {t t' : ChildHistories} {id taskId : String} {page : ChildHistoryPage}

/-- The rows of a child that come from the transcript file, in the order they were inserted. -/
def nativeRows (t : ChildHistories) (id taskId : String) : List ChildStreamRow :=
  t.native.filter (·.of id taskId)

/-- The cursor of a child. -/
def cursorOf (t : ChildHistories) (id taskId : String) : ChildHistoryCursor :=
  ((t.sources.find? fun row => row.sessionId = id && row.taskId = taskId).map (·.cursor)).getD {}

def entriesOf (rows : List ChildStreamRow) : List (ℕ × EventKind) :=
  rows.map fun row => (row.seq, row.event)

theorem insertNative_filter (rows : List ChildStreamRow) (e : Event) :
    (insertNative id taskId rows e).filter (·.of id taskId) =
      if e.seq ∈ ((rows.filter (·.of id taskId)).map (·.seq)) then rows.filter (·.of id taskId)
      else rows.filter (·.of id taskId) ++
        [{ sessionId := id, taskId, seq := e.seq, atMs := e.atMs, event := e.event }] := by
  have hany : (rows.any fun row => row.of id taskId && row.seq = e.seq) = true ↔
      e.seq ∈ (rows.filter (·.of id taskId)).map (·.seq) := by
    simp only [List.any_eq_true, Bool.and_eq_true, decide_eq_true_eq, List.mem_map, List.mem_filter,
      and_assoc]
  unfold insertNative
  by_cases h : e.seq ∈ (rows.filter (·.of id taskId)).map (·.seq)
  · rw [if_pos h, if_pos (hany.2 h)]
  · rw [if_neg h, if_neg (fun ha => h (hany.1 ha)), List.filter_append]
    simp [ChildStreamRow.of]

theorem insertNative_other {other otherTask : String} (hne : ¬(other = id ∧ otherTask = taskId))
    (rows : List ChildStreamRow) (e : Event) :
    (insertNative other otherTask rows e).filter (·.of id taskId) = rows.filter (·.of id taskId) := by
  unfold insertNative
  split_ifs
  · rfl
  · rw [List.filter_append]
    simpa [ChildStreamRow.of] using not_and.1 hne

/-- Events whose numbers are there already are not inserted again. -/
theorem insert_known : ∀ {events : List Event} {rows : List ChildStreamRow},
    (∀ e ∈ events, e.seq ∈ (rows.filter (·.of id taskId)).map (·.seq)) →
      (events.foldl (insertNative id taskId) rows).filter (·.of id taskId) =
        rows.filter (·.of id taskId)
  | [], _, _ => rfl
  | e :: events, rows, h => by
    have he := @insertNative_filter id taskId rows e
    rw [if_pos (h e List.mem_cons_self)] at he
    rw [List.foldl_cons, insert_known (fun f hf => by rw [he]; exact h f (List.mem_cons_of_mem _ hf)),
      he]

/-- Events with new numbers that go up are inserted behind the others. -/
theorem insert_new : ∀ {events : List Event} {rows : List ChildStreamRow},
    (∀ e ∈ events, e.seq ∉ (rows.filter (·.of id taskId)).map (·.seq)) →
      events.Pairwise (·.seq < ·.seq) →
      entriesOf ((events.foldl (insertNative id taskId) rows).filter (·.of id taskId)) =
        entriesOf (rows.filter (·.of id taskId)) ++ events.map fun e => (e.seq, e.event)
  | [], _, _, _ => by simp
  | e :: events, rows, h, hsorted => by
    obtain ⟨hlt, hsorted⟩ := List.pairwise_cons.1 hsorted
    have he := @insertNative_filter id taskId rows e
    rw [if_neg (h e List.mem_cons_self)] at he
    rw [List.foldl_cons, insert_new (fun f hf hmem => ?_) hsorted, he]
    · simp [entriesOf]
    · rw [he, List.map_append, List.mem_append] at hmem
      rcases hmem with hmem | hmem
      · exact h f (List.mem_cons_of_mem _ hf) hmem
      · exact absurd (List.mem_singleton.1 hmem) (hlt f hf).ne'

theorem find?_forward {p : ChildSourceRow → Bool} {cursor : ChildHistoryCursor}
    (hp : ∀ row : ChildSourceRow, p { row with cursor } = p row) : ∀ {rows : List ChildSourceRow}
    {row : ChildSourceRow}, rows.find? p = some row →
      ((Table.updateWhere (fun row => p row && row.cursor.offset ≤ cursor.offset)
        (fun row => { row with cursor }) rows).find? p).map (·.cursor) =
          some (if row.cursor.offset ≤ cursor.offset then cursor else row.cursor)
  | [], _, h => by cases h
  | r :: rows, row, h => by
    rw [Table.updateWhere_cons]
    rcases hr : p r with _ | _
    · rw [List.find?_cons_of_neg (by simp [hr])] at h
      simp only [Bool.false_and, Bool.false_eq_true, if_false]
      rw [List.find?_cons_of_neg (by simp [hr])]
      exact find?_forward hp h
    · rw [List.find?_cons_of_pos hr, Option.some.injEq] at h
      subst h
      simp only [Bool.true_and, decide_eq_true_eq]
      split_ifs with hle
      · rw [List.find?_cons_of_pos (by rw [hp, hr])]
        rfl
      · rw [List.find?_cons_of_pos hr]
        rfl

/-- The cursor only moves forward. -/
theorem cursorOf_put {t' : ChildHistories} {cursor : ChildHistoryCursor}
    (h : t'.sources = putSource id taskId cursor t.sources) :
    t'.cursorOf id taskId =
      if (t.cursorOf id taskId).offset ≤ cursor.offset then cursor else t.cursorOf id taskId := by
  unfold cursorOf
  rw [h, putSource]
  rcases hfind : t.sources.find? fun row => row.sessionId = id && row.taskId = taskId with _ | row
  · have hany : ¬(t.sources.any fun row => row.sessionId = id && row.taskId = taskId) = true := by
      rw [List.find?_eq_none] at hfind
      rw [List.any_eq_true]
      rintro ⟨row, hrow, hkey⟩
      exact hfind row hrow hkey
    rw [if_neg hany, List.find?_append, hfind, Option.map_none, Option.getD_none,
      if_pos (Nat.zero_le _)]
    simp
  · have hany : (t.sources.any fun row => row.sessionId = id && row.taskId = taskId) = true :=
      List.any_eq_true.2 ⟨row, List.mem_of_find?_eq_some hfind, by simpa using List.find?_some hfind⟩
    rw [if_pos hany, find?_forward (fun _ => rfl) hfind, hfind]
    rfl

theorem putSource_other {other otherTask : String} (hne : ¬(other = id ∧ otherTask = taskId))
    {t' : ChildHistories} {cursor : ChildHistoryCursor}
    (h : t'.sources = putSource other otherTask cursor t.sources) :
    t'.cursorOf id taskId = t.cursorOf id taskId := by
  have hnot : ∀ row : ChildSourceRow, (row.sessionId = other && row.taskId = otherTask) = true →
      (row.sessionId = id && row.taskId = taskId) = false := fun row hrow => by
    simp only [Bool.and_eq_true, decide_eq_true_eq] at hrow
    simpa [hrow.1, hrow.2] using not_and.1 hne
  unfold cursorOf
  rw [h, putSource]
  split_ifs
  · congr 2
    induction t.sources with
    | nil => rfl
    | cons r rows ih =>
      rw [Table.updateWhere_cons]
      split_ifs with hr
      · rw [Bool.and_eq_true] at hr
        have hkey := hnot r hr.1
        rw [List.find?_cons_of_neg (by simpa using hkey), List.find?_cons_of_neg (by simpa using hkey),
          ih]
      · rw [List.find?_cons, List.find?_cons, ih]
  · rw [List.find?_append]
    have hkey := hnot { sessionId := other, taskId := otherTask, cursor } (by simp)
    rw [List.find?_cons_of_neg (by simpa using hkey)]
    simp

end ChildHistories

namespace ChildIndexing

variable {svc : ChildServices} {task : ChildTask} {taskId : String} {s t : ChildIndexing}

/-- The lines of the file. -/
def lines (s : ChildIndexing) : List (List UInt8) := Lines.complete isNewline s.file.content

theorem lines_ne_nil {line : List UInt8} (h : line ∈ s.lines) : line ≠ [] :=
  (Lines.complete_whole h).ne_nil

/-- A cursor stands behind these lines, and carries the reports that they leave. -/
def At (svc : ChildServices) (task : ChildTask) (cursor : ChildHistoryCursor)
    (done : List (List UInt8)) (entries : List (ℕ × EventKind)) : Prop :=
  parseLines svc task done = .ok ((cursor.offset, cursor.handbacks), entries)

/-- What a page in hand is. -/
structure PageOf (svc : ChildServices) (task : ChildTask) (done all : List (List UInt8))
    (page : ChildHistoryPage) : Prop where
  pageOf : ∃ before new first entries, before <+: done ∧ before ++ new <+: all ∧
    parseLines svc task before = .ok first ∧
    Transducer.run (parseRecord svc task) first.1 new =
      .ok ((page.cursor.offset, page.cursor.handbacks), entries) ∧
    page.events.map (fun e => (e.seq, e.event)) = entries
  session : ∀ e ∈ page.events, e.sessionId = task.sessionId

/-- The cached rows are what the lines before the stored cursor give, and whoever holds an older
cursor holds one that was stored. -/
structure Indexed (svc : ChildServices) (task : ChildTask) (taskId : String) (s : ChildIndexing)
    (done : List (List UInt8)) (entries : List (ℕ × EventKind)) : Prop where
  front : done <+: s.lines
  stored : At svc task (s.histories.cursorOf task.sessionId taskId) done entries
  rows : ChildHistories.entriesOf (s.histories.nativeRows task.sessionId taskId) = entries
  cursors : ∀ cursor ∈ s.cursors, ∃ before entries, before <+: done ∧ At svc task cursor before entries
  pages : ∀ page ∈ s.pages, PageOf svc task done s.lines page

theorem At.offset {cursor : ChildHistoryCursor} {done : List (List UInt8)}
    {entries : List (ℕ × EventKind)} (hne : ∀ line ∈ done, line ≠ [])
    (h : At svc task cursor done entries) : cursor.offset = done.flatten.length := by
  have := (parse_numbers hne h).1
  simpa using this

/-- A page is whole lines. -/
theorem readLines_cases {rest : List UInt8} {tail : Bool} : ∀ {lines : List (List UInt8)}
    {bytes out : List UInt8}, readLines bytes lines rest = .ok (out, tail) →
      ∃ taken left, lines = taken ++ left ∧ out = bytes ++ taken.flatten
  | [], bytes, out, h => by
    refine ⟨[], [], rfl, ?_⟩
    unfold readLines at h
    split_ifs at h
    · simpa using (Prod.mk.inj (Except.ok.inj h)).1.symm
    · simp only [bind_eq_ok, Except.ok.injEq, Prod.mk.injEq] at h
      obtain ⟨_, -, rfl, -⟩ := h
      simp
  | line :: lines, bytes, out, h => by
    unfold readLines at h
    split_ifs at h
    · exact ⟨[], line :: lines, rfl, by simpa using (Prod.mk.inj (Except.ok.inj h)).1.symm⟩
    · obtain ⟨_, -, h⟩ := bind_eq_ok.1 h
      obtain ⟨taken, left, rfl, rfl⟩ := readLines_cases h
      exact ⟨line :: taken, left, rfl, by rw [List.flatten_cons, List.append_assoc]⟩

/-- What reading a page gives, at a cursor that stands behind some lines. -/
theorem childHistory_page {file : NativeFile} {cursor : ChildHistoryCursor} {now : ℕ}
    {before : List (List UInt8)} {entries : List (ℕ × EventKind)} {page : ChildHistoryPage}
    (hfront : before <+: Lines.complete isNewline file.content)
    (hat : At svc task cursor before entries)
    (h : childHistory svc task file cursor now = .ok page) :
    ∃ new entries', before ++ new <+: Lines.complete isNewline file.content ∧
      Transducer.run (parseRecord svc task) (cursor.offset, cursor.handbacks) new =
        .ok ((page.cursor.offset, page.cursor.handbacks), entries') ∧
      page.events.map (fun e => (e.seq, e.event)) = entries' ∧
      ∀ e ∈ page.events, e.sessionId = task.sessionId := by
  have hne : ∀ line ∈ before, line ≠ [] := fun line hline =>
    (Lines.complete_whole (hfront.subset hline)).ne_nil
  obtain ⟨more, hmore, hdrop, -⟩ := Lines.complete_drop hfront
  rw [← At.offset hne hat] at hdrop
  obtain ⟨raw, hraw, hparse⟩ := bind_eq_ok.1 h
  simp only [readChildPagePath, bind_eq_ok, bailIf_eq_ok, Except.ok.injEq, Prod.exists] at hraw
  obtain ⟨_, -, _, -, bytes, tail, hread, rfl⟩ := hraw
  obtain ⟨new, left, hlines, hbytes⟩ := readLines_cases hread
  rw [hdrop] at hlines
  rw [List.nil_append] at hbytes
  have hnew : before ++ new <+: Lines.complete isNewline file.content := by
    rw [hmore, hlines, ← List.append_assoc]
    exact List.prefix_append _ _
  have hsplit : Lines.split isNewline bytes = new := by
    rw [hbytes]
    exact Lines.split_of_flatten fun line hline =>
      Lines.complete_whole (hnew.subset (List.mem_append_right _ hline))
  obtain ⟨⟨⟨offset, handbacks⟩, entries'⟩, hrun, hpage⟩ := bind_eq_ok.1 hparse
  rw [hsplit] at hrun
  obtain rfl := Except.ok.inj hpage
  refine ⟨new, entries', hnew, hrun, ?_, ?_⟩
  · rw [List.map_map]
    exact List.map_id _
  · simp only [List.mem_map]
    rintro e ⟨entry, -, rfl⟩
    rfl

theorem PageOf.mono {done done' all all' : List (List UInt8)} {page : ChildHistoryPage}
    (h : PageOf svc task done all page) (hdone : done <+: done') (hall : all <+: all') :
    PageOf svc task done' all' page := by
  obtain ⟨before, new, first, entries, hbefore, hnew, hrest⟩ := h.pageOf
  exact ⟨⟨before, new, first, entries, hbefore.trans hdone, hnew.trans hall, hrest⟩, h.session⟩

/-- What is known of the rows and the cursor of a longer stretch. -/
theorem Indexed.grow {done done' : List (List UInt8)} {entries entries' : List (ℕ × EventKind)}
    {histories : ChildHistories} (hs : Indexed svc task taskId s done entries)
    (hdone : done <+: done') (hfront : done' <+: s.lines)
    (hstored : At svc task (histories.cursorOf task.sessionId taskId) done' entries')
    (hrows : ChildHistories.entriesOf (histories.nativeRows task.sessionId taskId) = entries') :
    Indexed svc task taskId { s with histories } done' entries' where
  front := hfront
  stored := hstored
  rows := hrows
  cursors cursor hcursor := by
    obtain ⟨before, e, hbefore, hat⟩ := hs.cursors cursor hcursor
    exact ⟨before, e, hbefore.trans hdone, hat⟩
  pages page hpage := (hs.pages page hpage).mono hdone List.prefix_rfl

theorem seq_mem_rows {id : String} {h : ChildHistories} {e : Event}
    (he : (e.seq, e.event) ∈ ChildHistories.entriesOf (h.nativeRows id taskId)) :
    e.seq ∈ (h.native.filter (·.of id taskId)).map (·.seq) := by
  obtain ⟨row, hrow, heq⟩ := List.mem_map.1 he
  exact List.mem_map.2 ⟨row, hrow, (Prod.mk.inj heq).1⟩

/-- A page whose lines were all read leaves the rows alone. -/
theorem cache_known {done : List (List UInt8)} {entries : List (ℕ × EventKind)}
    {page : ChildHistoryPage} {histories : ChildHistories} {read : List (List UInt8)}
    {out all : List (ℕ × EventKind)}
    (hs : Indexed svc task taskId s done entries) (hread : read <+: done)
    (hall : At svc task page.cursor read all) (hout : ∀ e ∈ out, e ∈ all)
    (hevents : page.events.map (fun e => (e.seq, e.event)) = out)
    (hnative : histories.native = page.events.foldl (ChildHistories.insertNative task.sessionId taskId)
      s.histories.native)
    (hsources : histories.sources = ChildHistories.putSource task.sessionId taskId page.cursor
      s.histories.sources) :
    Indexed svc task taskId { s with histories } done entries := by
  obtain ⟨rest, rfl⟩ := hread
  obtain ⟨u, o, more, hfirst, hrest, hentries⟩ := Transducer.run_append_ok.1 hs.stored
  obtain ⟨hu, ho⟩ := Prod.mk.inj (Except.ok.inj (hfirst.symm.trans hall))
  refine hs.grow List.prefix_rfl hs.front ?_ ?_
  · rw [ChildHistories.cursorOf_put hsources]
    split_ifs with hle
    · -- the page ends where the stored cursor stands
      have hne : ∀ line ∈ rest, line ≠ [] := fun line hline =>
        lines_ne_nil (hs.front.subset (List.mem_append_right _ hline))
      have hlen := (parse_numbers hne hrest).1
      rw [hu] at hlen
      have hnil : rest = [] := by
        rcases rest with _ | ⟨line, rest⟩
        · rfl
        · have hpos := List.length_pos_iff.2 (hne line List.mem_cons_self)
          rw [List.flatten_cons, List.length_append] at hlen
          simp only at hlen
          omega
      subst hnil
      obtain ⟨-, rfl⟩ := Prod.mk.inj (Except.ok.inj hrest)
      rw [List.append_nil, hentries, List.append_nil, ho]
      exact hall
    · exact hs.stored
  · have hknown : ∀ e ∈ page.events, e.seq ∈
        (s.histories.native.filter (·.of task.sessionId taskId)).map (·.seq) := fun e he => by
      refine seq_mem_rows ?_
      rw [hs.rows, hentries, ho]
      exact List.mem_append_left _ (hout _ (hevents ▸ List.mem_map.2 ⟨e, he, rfl⟩))
    rw [ChildHistories.nativeRows, hnative, ChildHistories.insert_known hknown]
    exact hs.rows

/-- A page that reaches further adds the rows behind those that are there. -/
theorem cache_new {done new : List (List UInt8)} {entries old out : List (ℕ × EventKind)}
    {page : ChildHistoryPage} {histories : ChildHistories}
    (hs : Indexed svc task taskId s done entries) (hfront : done ++ new <+: s.lines)
    (hrun : Transducer.run (parseRecord svc task)
      ((s.histories.cursorOf task.sessionId taskId).offset,
        (s.histories.cursorOf task.sessionId taskId).handbacks) new =
      .ok ((page.cursor.offset, page.cursor.handbacks), out))
    (hold : ∀ e ∈ old, e ∈ entries)
    (hevents : page.events.map (fun e => (e.seq, e.event)) = old ++ out)
    (hnative : histories.native = page.events.foldl (ChildHistories.insertNative task.sessionId taskId)
      s.histories.native)
    (hsources : histories.sources = ChildHistories.putSource task.sessionId taskId page.cursor
      s.histories.sources) :
    Indexed svc task taskId { s with histories } (done ++ new) (entries ++ out) := by
  have hne : ∀ line ∈ done ++ new, line ≠ [] := fun line hline =>
    lines_ne_nil (hfront.subset hline)
  obtain ⟨hend, hnew, -⟩ := parse_numbers (fun l hl => hne l (List.mem_append_right _ hl)) hrun
  obtain ⟨-, hfirst, -⟩ := parse_numbers (fun l hl => hne l (List.mem_append_left _ hl)) hs.stored
  have hat : At svc task page.cursor (done ++ new) (entries ++ out) :=
    Transducer.run_append_ok.2 ⟨_, _, _, hs.stored, hrun, rfl⟩
  refine hs.grow (List.prefix_append _ _) hfront ?_ ?_
  · rw [ChildHistories.cursorOf_put hsources, if_pos]
    · exact hat
    · simp only at hend
      omega
  · obtain ⟨known, fresh, hpage, hknown, hfresh⟩ := List.map_eq_append_iff.1 hevents
    have hmem : ∀ e ∈ known, e.seq ∈
        (s.histories.native.filter (·.of task.sessionId taskId)).map (·.seq) := fun e he => by
      refine seq_mem_rows ?_
      rw [hs.rows]
      exact hold _ (hknown ▸ List.mem_map.2 ⟨e, he, rfl⟩)
    have hrows := ChildHistories.insert_known hmem
    rw [ChildHistories.nativeRows, hnative, hpage, List.foldl_append,
      ChildHistories.insert_new, hrows, hfresh]
    · rw [← hs.rows]
      rfl
    · intro e he hin
      rw [hrows] at hin
      obtain ⟨row, hrow, hseq⟩ := List.mem_map.1 hin
      have hrowmem : (row.seq, row.event) ∈ entries := by
        rw [← hs.rows]
        exact List.mem_map.2 ⟨row, hrow, rfl⟩
      have hhigh := hfirst.high _ hrowmem
      have hlow := hnew.low (e.seq, e.event) (hfresh ▸ List.mem_map.2 ⟨e, he, rfl⟩)
      simp only at hhigh hlow
      omega
    · have hsorted := hnew.sorted
      rw [← hfresh] at hsorted
      have hfreshSorted := List.pairwise_map.1 hsorted
      exact hfreshSorted

/-- Caching a page leaves the rows of the longer of the two stretches of lines. -/
theorem cache_indexed {done : List (List UInt8)} {entries : List (ℕ × EventKind)}
    {page : ChildHistoryPage} {histories : ChildHistories}
    (hs : Indexed svc task taskId s done entries) (hpage : PageOf svc task done s.lines page)
    (h : s.histories.cacheChildHistory task.sessionId taskId page = .ok histories) :
    ∃ done' entries', done <+: done' ∧
      Indexed svc task taskId { s with histories } done' entries' := by
  obtain ⟨before, new, first, out, hbefore, hnew, hfirst, hrun, hevents⟩ := hpage.pageOf
  simp only [ChildHistories.cacheChildHistory, bind_eq_ok, Except.ok.injEq] at h
  obtain ⟨_, -, _, -, rfl⟩ := h
  have hall : At svc task page.cursor (before ++ new) (first.2 ++ out) :=
    Transducer.run_append_ok.2 ⟨first.1, first.2, out, hfirst, hrun, rfl⟩
  rcases List.prefix_or_prefix_of_prefix hnew hs.front with hread | hlonger
  · exact ⟨done, entries, List.prefix_rfl, cache_known hs hread hall
      (fun e he => List.mem_append_right _ he) hevents rfl rfl⟩
  · obtain ⟨a, rfl⟩ := hbefore
    obtain ⟨b, rfl⟩ : ∃ b, new = a ++ b := by
      obtain ⟨b, hb⟩ := hlonger
      exact ⟨b, by simpa using hb.symm⟩
    obtain ⟨u, ea, eb, ha, hb, rfl⟩ := Transducer.run_append_ok.1 hrun
    have hdone := Transducer.run_append_ok.2 ⟨first.1, first.2, ea, hfirst, ha, rfl⟩
    obtain ⟨hu, he⟩ := Prod.mk.inj (Except.ok.inj (hs.stored.symm.trans hdone))
    rw [← hu] at hb
    rw [← List.append_assoc] at hnew
    refine ⟨_, _, List.prefix_append _ _, cache_new hs hnew hb (fun e h => ?_) hevents rfl rfl⟩
    rw [he]
    exact List.mem_append_right _ h

theorem insertNative_foldl_other {id other otherTask : String}
    (hne : ¬(other = id ∧ otherTask = taskId)) : ∀ (events : List Event) (rows : List ChildStreamRow),
    (events.foldl (ChildHistories.insertNative other otherTask) rows).filter (·.of id taskId) =
      rows.filter (·.of id taskId)
  | [], _ => rfl
  | e :: events, rows => by
    rw [List.foldl_cons, insertNative_foldl_other hne events, ChildHistories.insertNative_other hne]

/-- Some front of the lines is indexed. -/
def Sound (svc : ChildServices) (task : ChildTask) (taskId : String) (s : ChildIndexing) : Prop :=
  ∃ done entries, Indexed svc task taskId s done entries

theorem sound_start (transcripts : Transcripts) (file : NativeFile) :
    Sound svc task taskId (start transcripts file) :=
  ⟨[], [], { front := List.nil_prefix, stored := rfl, rows := rfl
             cursors := by simp [start], pages := by simp [start] }⟩

/-- What every operation keeps. -/
theorem sound_apply {o : ChildIndexOp} (hs : Sound svc task taskId s)
    (h : apply svc task taskId s o = .ok t) : Sound svc task taskId t := by
  obtain ⟨done, entries, hs⟩ := hs
  cases o with
  | append bytes =>
    obtain rfl := Except.ok.inj h
    have hlines : s.lines <+: Lines.complete isNewline (s.file.content ++ bytes) :=
      Lines.complete_prefix_append _ _
    exact ⟨done, entries, { hs with
      front := hs.front.trans hlines
      pages := fun page hpage => (hs.pages page hpage).mono List.prefix_rfl hlines }⟩
  | load =>
    simp only [apply, ChildHistories.childHistoryCursor, bind_eq_ok, Except.ok.injEq] at h
    obtain ⟨cursor, ⟨_, -, rfl⟩, rfl⟩ := h
    refine ⟨done, entries, { hs with cursors := fun cursor hcursor => ?_ }⟩
    rcases List.mem_append.1 hcursor with hcursor | hcursor
    · exact hs.cursors cursor hcursor
    · obtain rfl := List.mem_singleton.1 hcursor
      exact ⟨done, entries, List.prefix_rfl, hs.stored⟩
  | read place now =>
    obtain ⟨cursor, hcursor, h⟩ := bind_eq_ok.1 h
    obtain ⟨page, hpage, h⟩ := bind_eq_ok.1 h
    obtain rfl := Except.ok.inj h
    have hmem : cursor ∈ s.cursors := List.mem_of_getElem? (orError_eq_ok.1 hcursor)
    obtain ⟨before, first, hbefore, hat⟩ := hs.cursors cursor hmem
    obtain ⟨new, out, hnew, hrun, hevents, hsession⟩ :=
      childHistory_page (hbefore.trans hs.front) hat hpage
    refine ⟨done, entries, { hs with pages := fun p hp => ?_ }⟩
    rcases List.mem_append.1 hp with hp | hp
    · exact hs.pages p hp
    · obtain rfl := List.mem_singleton.1 hp
      exact ⟨⟨before, new, _, out, hbefore, hnew, hat, hrun, hevents⟩, hsession⟩
  | cache place =>
    obtain ⟨page, hpage, h⟩ := bind_eq_ok.1 h
    obtain ⟨histories, hcache, h⟩ := bind_eq_ok.1 h
    obtain rfl := Except.ok.inj h
    have hmem : page ∈ s.pages := List.mem_of_getElem? (orError_eq_ok.1 hpage)
    obtain ⟨done', entries', -, ht⟩ := cache_indexed hs (hs.pages page hmem) hcache
    exact ⟨done', entries', ht⟩
  | other id otherTask page =>
    simp only [apply, bind_eq_ok, bailIf_eq_ok, Except.ok.injEq] at h
    obtain ⟨_, hne, histories, hcache, rfl⟩ := h
    simp only [ChildHistories.cacheChildHistory, bind_eq_ok, Except.ok.injEq] at hcache
    obtain ⟨_, -, _, -, rfl⟩ := hcache
    refine ⟨done, entries, hs.grow List.prefix_rfl hs.front ?_ ?_⟩
    · rw [ChildHistories.putSource_other hne rfl]
      exact hs.stored
    · rw [ChildHistories.nativeRows, insertNative_foldl_other hne]
      exact hs.rows
  | database transcripts =>
    obtain rfl := Except.ok.inj h
    exact ⟨done, entries, hs.grow List.prefix_rfl hs.front hs.stored hs.rows⟩
  | restart =>
    obtain rfl := Except.ok.inj h
    exact ⟨done, entries, { hs with cursors := by simp, pages := by simp }⟩

theorem sound_run (transcripts : Transcripts) (file : NativeFile) (ops : List ChildIndexOp) :
    Sound svc task taskId (Runs.run (step svc task taskId) (start transcripts file) ops) :=
  Runs.run_keeps (sound_start transcripts file)
    (fun _ _ hs => Runs.attempt_keeps (fun _ h => sound_apply hs h) hs) ops

/-- The rows are inserted in the order in which they are read. -/
theorem cached_eq {done : List (List UInt8)} {entries : List (ℕ × EventKind)}
    (hs : Indexed svc task taskId s done entries) : s.cached task.sessionId taskId = entries := by
  have hne : ∀ line ∈ done, line ≠ [] := fun line hline => lines_ne_nil (hs.front.subset hline)
  obtain ⟨-, hnumbers, -⟩ := parse_numbers hne hs.stored
  have hsorted := hnumbers.sorted
  rw [← hs.rows] at hsorted
  have hrows : (s.histories.nativeRows task.sessionId taskId).Pairwise (·.seq ≤ ·.seq) :=
    (List.pairwise_map.1 hsorted).imp fun h => h.le
  exact (congrArg ChildHistories.entriesOf (List.Pairwise.insertionSort_eq hrows)).trans hs.rows

/-- A page that says there is no more ends behind the last line. -/
theorem readLines_all {tail : Bool} {rest : List UInt8} : ∀ {lines : List (List UInt8)}
    {bytes out : List UInt8}, readLines bytes lines rest = .ok (out, tail) → tail = true →
      out = bytes ++ lines.flatten
  | [], bytes, out, h, htail => by
    unfold readLines at h
    split_ifs at h
    · cases (Prod.mk.inj (Except.ok.inj h)).2.trans htail
    · simp only [bind_eq_ok, Except.ok.injEq, Prod.mk.injEq] at h
      obtain ⟨_, -, rfl, -⟩ := h
      simp
  | line :: lines, bytes, out, h, htail => by
    unfold readLines at h
    split_ifs at h
    · cases (Prod.mk.inj (Except.ok.inj h)).2.trans htail
    · obtain ⟨_, -, h⟩ := bind_eq_ok.1 h
      rw [readLines_all h htail, List.flatten_cons, List.append_assoc]

/-- A page that says there is no more ends behind the last line. -/
theorem page_ends {file : NativeFile} {cursor : ChildHistoryCursor} {now : ℕ}
    {page : ChildHistoryPage} {done more : List (List UInt8)}
    (hlines : Lines.complete isNewline file.content = done ++ more)
    (hoffset : cursor.offset = done.flatten.length)
    (h : childHistory svc task file cursor now = .ok page) (hmore : page.hasMore = false) :
    page.cursor.offset = (done ++ more).flatten.length := by
  obtain ⟨more', hmore', hdrop, -⟩ := Lines.complete_drop ⟨more, hlines.symm⟩
  obtain rfl := List.append_cancel_left (hlines.symm.trans hmore')
  rw [← hoffset] at hdrop
  obtain ⟨raw, hraw, hparse⟩ := bind_eq_ok.1 h
  simp only [readChildPagePath, bind_eq_ok, bailIf_eq_ok, Except.ok.injEq, Prod.exists] at hraw
  obtain ⟨_, -, _, hlen, bytes, tail, hread, rfl⟩ := hraw
  obtain ⟨⟨⟨offset, handbacks⟩, entries⟩, hrun, hpage⟩ := bind_eq_ok.1 hparse
  obtain rfl := Except.ok.inj hpage
  rw [hdrop] at hread
  obtain ⟨taken, left, rfl, hbytes⟩ := readLines_cases hread
  have hwhole : ∀ line ∈ done ++ (taken ++ left), Lines.Whole isNewline line := fun line hline =>
    Lines.complete_whole (hlines ▸ hline)
  have htaken : ∀ line ∈ taken, Lines.Whole isNewline line := fun line hline =>
    hwhole line (List.mem_append_right _ (List.mem_append_left _ hline))
  rw [List.nil_append] at hbytes
  rw [hbytes, Lines.split_of_flatten htaken] at hrun
  have hend := (parse_numbers (fun line hline => (htaken line hline).ne_nil) hrun).1
  have hlength := congrArg List.length (@Lines.complete_flatten _ isNewline file.content)
  rw [hlines] at hlength
  simp only [List.flatten_append, List.length_append] at hlength ⊢
  simp only at hend
  rcases tail with _ | _
  · -- the page reaches the end of the file
    simp only [Bool.not_false, Bool.true_and, decide_eq_false_iff_not, not_lt] at hmore
    rw [hbytes] at hmore
    omega
  · have hall := congrArg List.length (readLines_all hread rfl)
    rw [hbytes, List.nil_append, List.flatten_append, List.length_append] at hall
    omega

end ChildIndexing

end LatteWork
