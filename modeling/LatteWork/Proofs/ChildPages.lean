import LatteWork.Proofs.PageSizes
import LatteWork.Store.ChildHistory

/-!
# Pages of a child's history

A page is the longest run of rows within 256 KiB of stored bytes, and a row that is larger goes
alone. The prompt goes on every page. Both are counted as they are stored, so a page fits the frame
only if they still do as they are sent.
-/

namespace LatteWork

open Fallible Json Table

/-- What `subagent_history` counts for a row. -/
def ChildStreamRow.cost (id : String) (row : ChildStreamRow) : ℕ :=
  row.event.bytes + id.utf8ByteSize + 128

/-- The event a row is shown as. -/
def ChildStreamRow.shown (agent id : String) (row : ChildStreamRow) : Event where
  seq := row.seq
  sessionId := id
  atMs := row.atMs
  event := presented agent row.event

/-- There is room on a page: for 128 rows, and 256 KiB of them. A first row has always room. -/
def childRoom (id : String) (front : List ChildStreamRow) (row : ChildStreamRow) : Bool :=
  front.length ≠ 128 && (front.isEmpty || (front.map (·.cost id)).sum + row.cost id ≤ 256 * 1024)

theorem childRoom_length {id : String} {run : List ChildStreamRow}
    (h : Paging.Fitting (childRoom id) run) : run.length < 129 :=
  Nat.lt_succ_of_le (h.length_le fun front row hlen => by simp [childRoom, hlen])

/-- Where a reader who knows the last number it saw goes on. -/
def rowsAfter (rows : List ChildStreamRow) (after : Option ℕ) : List ChildStreamRow :=
  rows.filter fun row => after.all (· < row.seq)

theorem rowsAfter_eq_above (rows : List ChildStreamRow) (after : Option ℕ) :
    rowsAfter rows after = Paging.above (·.seq + 1) rows ((after.map (· + 1)).getD 0) := by
  refine List.filter_congr fun row _ => ?_
  cases after <;> simp

section Loop

variable {s : Store} {id : String} {x : Session} {prompt : ℕ}

/-- The loop takes the longest run that has room. -/
theorem childScan_eq (hx : s.session id = .ok x) :
    ∀ rows front : List ChildStreamRow, (∀ row ∈ rows, row.cost id + prompt ≤ maxFrame - 8192) →
      s.childScan id prompt (front.map (·.shown x.agent id)) (front.map (·.cost id)).sum rows =
        .ok ((Paging.takeRun (childRoom id) front rows).1.map (·.shown x.agent id),
          !(Paging.takeRun (childRoom id) front rows).2.isEmpty)
  | [], front, _ => rfl
  | row :: rows, front, hsizes => by
    have hcost : row.event.bytes + id.utf8ByteSize + 128 = row.cost id := rfl
    unfold Store.childScan Paging.takeRun
    simp only [hcost, List.length_map, List.isEmpty_map]
    by_cases hroom : childRoom id front row = true
    · have hgo : ¬(front.length = 128 ∨
          256 * 1024 < (front.map (·.cost id)).sum + row.cost id ∧ front.isEmpty = false) := by
        simp only [childRoom, Bool.and_eq_true, Bool.or_eq_true, decide_eq_true_eq, ne_eq] at hroom
        rintro (hlen | ⟨hsum, hne⟩)
        · exact hroom.1 hlen
        · rcases hroom.2 with he | hle
          · rw [he] at hne
            cases hne
          · omega
      have hsize : ¬maxFrame - 8192 < row.cost id + prompt :=
        Nat.not_lt.2 (hsizes row List.mem_cons_self)
      have ih := childScan_eq hx rows (front ++ [row]) fun r hr => hsizes r (List.mem_cons_of_mem _ hr)
      rw [if_neg hgo, if_pos hroom, bailIf_pass hsize, Store.presentationEvent_eq hx]
      rw [List.map_append, List.map_append, List.sum_append, List.map_singleton, List.map_singleton,
        List.sum_singleton] at ih
      exact ih
    · have hstop : front.length = 128 ∨
          256 * 1024 < (front.map (·.cost id)).sum + row.cost id ∧ front.isEmpty = false := by
        simp only [childRoom, Bool.and_eq_true, Bool.or_eq_true, decide_eq_true_eq, ne_eq, not_and,
          not_or] at hroom
        by_cases hlen : front.length = 128
        · exact .inl hlen
        · obtain ⟨hne, hsum⟩ := hroom hlen
          exact .inr ⟨by omega, by simpa using hne⟩
      rw [if_pos hstop, if_neg hroom]
      rfl

end Loop

namespace ChildHistories

variable {normalize : String → List Event × Bool → Except String (List Event × Bool)}
  {t : ChildHistories} {id taskId : String} {x : Session} {task : Subagent}

/-- The rows a client reads. -/
def readRows (t : ChildHistories) (id taskId : String) : List ChildStreamRow :=
  t.sourceRows id taskId (t.readsNative id taskId)

/-- A child with a stored history that passes the size checks. The numbers of its rows are a part
of the primary key. -/
structure Readable (t : ChildHistories) (id taskId : String) (x : Session) (task : Subagent) :
    Prop where
  found : t.transcripts.store.session id = .ok x
  child : t.transcripts.store.subagent id taskId = .ok task
  source : t.readsNative id taskId = true ∨ t.transcripts.stream.any (·.of id taskId) = true
  keyed : ((t.readRows id taskId).map (·.seq)).Nodup
  prompt : ∀ text ∈ t.transcripts.store.childPrompt id task, text.utf8ByteSize ≤ maxFrame / 2
  sizes : ∀ row ∈ t.readRows id taskId, row.cost id +
    ((t.transcripts.store.childPrompt id task).map (·.utf8ByteSize)).getD 0 ≤ maxFrame - 8192

/-- The answer that carries a run of rows. -/
def runResponse (t : ChildHistories) (id taskId agent : String) (task : Subagent)
    (sourceHasMore : Bool) (run : List ChildStreamRow) (hasMore : Bool) (after : Option ℕ) :
    SubagentHistory :=
  let native := t.readsNative id taskId
  let cursor := ((t.sources.find? fun row =>
    row.sessionId = id && row.taskId = taskId).map (·.cursor)).getD {}
  { prompt := t.transcripts.store.childPrompt id task
    events := run.map (·.shown agent id)
    hasMore
    after := (run.getLast?.map (·.seq)).or after
    sourceHasMore
    incomplete := cursor.incomplete task native sourceHasMore
    source := sourceName native }

theorem readRows_sorted (h : t.Readable id taskId x task) :
    (t.readRows id taskId).Pairwise (·.seq < ·.seq) := by
  have hsorted : (t.readRows id taskId).Pairwise (·.seq ≤ ·.seq) := by
    have := List.pairwise_insertionSort (fun a b : ChildStreamRow => a.seq ≤ b.seq)
      ((if t.readsNative id taskId then t.native else t.transcripts.stream).filter (·.of id taskId))
    exact this
  have hne : (t.readRows id taskId).Pairwise (·.seq ≠ ·.seq) := List.pairwise_map.1 h.keyed
  exact hsorted.imp₂ (fun _ _ hle hne => lt_of_le_of_ne hle hne) hne

theorem readRows_ne_nil (h : t.Readable id taskId x task) : t.readRows id taskId ≠ [] := by
  have hany : (if t.readsNative id taskId then t.native else t.transcripts.stream).any
      (·.of id taskId) = true := by
    by_cases hn : t.readsNative id taskId = true
    · rw [if_pos hn]
      simp only [readsNative, Bool.and_eq_true] at hn
      exact hn.2
    · rw [if_neg hn]
      exact h.source.resolve_left hn
  obtain ⟨row, hrow, hof⟩ := List.any_eq_true.1 hany
  exact List.ne_nil_of_mem ((List.mem_insertionSort _).2 (List.mem_filter.2 ⟨hrow, hof⟩))

/-- The cursor of a request counts only for the source it came from. -/
def readAfter (t : ChildHistories) (id taskId : String) (after : Option ℕ) (source : Option String) :
    Option ℕ :=
  if source = some (sourceName (t.readsNative id taskId)) then after else none

/-- The rows of a page, and those behind it. -/
def pageRun (t : ChildHistories) (id taskId : String) (after : Option ℕ) :
    List ChildStreamRow × List ChildStreamRow :=
  Paging.takeRun (childRoom id) [] (rowsAfter (t.readRows id taskId) after)

/-- What a request is answered with: the longest run with room of the rows behind its cursor. -/
theorem subagentHistory_page
    (normalize : String → List Event × Bool → Except String (List Event × Bool)) (h : t.Readable id taskId x task) (sourceHasMore : Bool)
    (after : Option ℕ) (source : Option String) :
    t.subagentHistory normalize id taskId after source sourceHasMore =
      .ok (t.runResponse id taskId x.agent task sourceHasMore
        (t.pageRun id taskId (t.readAfter id taskId after source)).1
        (!(t.pageRun id taskId (t.readAfter id taskId after source)).2.isEmpty)
        (t.readAfter id taskId after source)) := by
  have hprompt : ¬∃ text ∈ t.transcripts.store.childPrompt id task,
      maxFrame / 2 < text.utf8ByteSize := by
    rintro ⟨text, htext, hlong⟩
    exact absurd (h.prompt text htext) (Nat.not_le.2 hlong)
  have hsource : ¬(t.readsNative id taskId = false ∧
      t.transcripts.stream.any (·.of id taskId) = false) := by
    rintro ⟨hn, hs⟩
    rcases h.source with h | h
    · rw [hn] at h
      cases h
    · rw [hs] at h
      cases h
  obtain ⟨hrun, hleft⟩ := Paging.takeRun_take (fun _ => @childRoom_length id _)
    (rowsAfter (t.readRows id taskId) (t.readAfter id taskId after source))
  have hscan := childScan_eq h.found
    ((rowsAfter (t.readRows id taskId) (t.readAfter id taskId after source)).take 129) []
    fun row hrow => h.sizes row (List.mem_filter.1 (List.mem_of_mem_take hrow)).1
  have hempty : ∀ l : List ChildStreamRow, l.isEmpty = l.head?.isNone := fun l => by cases l <;> rfl
  rw [hrun, hempty, hleft, ← hempty] at hscan
  have hcursor : t.childHistoryCursor id taskId = .ok (((t.sources.find? fun row =>
      row.sessionId = id && row.taskId = taskId).map (·.cursor)).getD {}) :=
    bind_eq_ok.2 ⟨task, h.child, rfl⟩
  refine bind_eq_ok.2 ⟨task, h.child, bind_eq_ok.2 ⟨(), bailIf_eq_ok.2 hprompt, ?_⟩⟩
  rw [if_neg hsource]
  refine bind_eq_ok.2 ⟨_, hscan, bind_eq_ok.2 ⟨_, hcursor, ?_⟩⟩
  simp only [runResponse, List.getLast?_map, Option.map_map]
  rfl

theorem childRoom_nil (row : ChildStreamRow) : childRoom id [] row = true := rfl

theorem pageRun_split (after : Option ℕ) :
    (t.pageRun id taskId after).1 ++ (t.pageRun id taskId after).2 =
        rowsAfter (t.readRows id taskId) after ∧
      Paging.Fitting (childRoom id) (t.pageRun id taskId after).1 ∧
      ((t.pageRun id taskId after).2 ≠ [] → (t.pageRun id taskId after).1 ≠ []) := by
  obtain ⟨hsplit, hfit, hmax⟩ := Paging.takeRun_spec (rowsAfter (t.readRows id taskId) after) []
    (@Paging.Fitting.nil _ (childRoom id))
  refine ⟨hsplit, hfit, fun hne hnil => ?_⟩
  obtain ⟨row, rest, hrest⟩ := List.exists_cons_of_ne_nil hne
  have hstop := hmax row (by rw [show (Paging.takeRun _ _ _).2 = _ from hrest]; rfl)
  rw [show (Paging.takeRun _ _ _).1 = _ from hnil, childRoom_nil] at hstop
  cases hstop

/-- Behind the last row of a page are the rows it left. -/
theorem rowsAfter_last {rows run rest : List ChildStreamRow} {a : ChildStreamRow} {after : Option ℕ}
    (hsorted : rows.Pairwise (·.seq < ·.seq)) (h : rowsAfter rows after = run ++ a :: rest) :
    rowsAfter rows (some a.seq) = rest := by
  rw [rowsAfter_eq_above] at h ⊢
  exact Paging.above_last (hsorted.imp fun h => Nat.succ_lt_succ h) h

/-- Ask for a child's history from the start, then from where each answer says, at most `fuel`
times. -/
def followHistory (ask : Option ℕ → Option String → Except String SubagentHistory) :
    ℕ → Option ℕ → Option String → Option (List SubagentHistory)
  | 0, _, _ => none
  | fuel + 1, after, source => (ask after source).toOption.bind fun r =>
    if r.hasMore then (followHistory ask fuel r.after (some r.source)).map (r :: ·) else some [r]

/-- Following the cursors reads each row once, in order. -/
theorem followHistory_covers
    (normalize : String → List Event × Bool → Except String (List Event × Bool)) (h : t.Readable id taskId x task) (sourceHasMore : Bool) :
    ∀ fuel after source,
      (rowsAfter (t.readRows id taskId) (t.readAfter id taskId after source)).length < fuel →
      ∃ pages, followHistory (fun after source =>
          t.subagentHistory normalize id taskId after source sourceHasMore) fuel after source =
          some pages ∧
        pages.flatMap (·.events) =
          (rowsAfter (t.readRows id taskId) (t.readAfter id taskId after source)).map
            (·.shown x.agent id)
  | 0, _, _, hfuel => absurd hfuel (Nat.not_lt_zero _)
  | fuel + 1, after, source, hfuel => by
    have hpage := subagentHistory_page normalize h sourceHasMore after source
    obtain ⟨hsplit, -, hne⟩ := @pageRun_split t id taskId (t.readAfter id taskId after source)
    generalize t.pageRun id taskId (t.readAfter id taskId after source) = page at hpage hsplit hne
    obtain ⟨run, rest⟩ := page
    simp only at hpage hsplit hne
    rcases rest with _ | ⟨b, rest⟩
    · refine ⟨[_], by simp only [followHistory, hpage]; rfl, ?_⟩
      rw [← hsplit, List.append_nil]
      exact List.append_nil _
    · obtain ⟨front, a, rfl⟩ := (List.eq_nil_or_concat' run).resolve_left (hne (by simp))
      rw [List.append_assoc, List.singleton_append] at hsplit
      have hafter : t.readAfter id taskId (some a.seq) (some (sourceName (t.readsNative id taskId))) =
          some a.seq := if_pos rfl
      have hnext := rowsAfter_last (readRows_sorted h) hsplit.symm
      have hshort : (rowsAfter (t.readRows id taskId) (t.readAfter id taskId (some a.seq)
          (some (sourceName (t.readsNative id taskId))))).length < fuel := by
        rw [hafter, hnext]
        rw [← hsplit] at hfuel
        simp only [List.length_append, List.length_cons] at hfuel ⊢
        omega
      obtain ⟨pages, hfollow, hflat⟩ := followHistory_covers normalize h sourceHasMore fuel _ _ hshort
      rw [hafter, hnext] at hflat
      refine ⟨t.runResponse id taskId x.agent task sourceHasMore (front ++ [a]) true
        (t.readAfter id taskId after source) :: pages, ?_, ?_⟩
      · have hlast : (t.runResponse id taskId x.agent task sourceHasMore (front ++ [a]) true
            (t.readAfter id taskId after source)).after = some a.seq := by simp [runResponse]
        simp only [followHistory, hpage, List.isEmpty_cons, Bool.not_false, Except.toOption,
          Option.bind_some, hlast]
        rw [show (t.runResponse id taskId x.agent task sourceHasMore (front ++ [a]) true
          (t.readAfter id taskId after source)).source = sourceName (t.readsNative id taskId) from rfl,
          hfollow]
        rfl
      · rw [List.flatMap_cons, hflat, ← hsplit]
        simp [runResponse]

/-- Every answer about a child's history fits the frame, and following the cursors reads each row
once, in order. -/
structure EveryChildPageFits
    (normalize : String → List Event × Bool → Except String (List Event × Bool))
    (t : ChildHistories) (id taskId agent : String) (sourceHasMore : Bool) : Prop where
  fits : ∀ after source r,
    t.subagentHistory normalize id taskId after source sourceHasMore = .ok r →
      r.toJson.size ≤ maxFrame
  once : ∀ fuel, (t.readRows id taskId).length < fuel →
    ∃ pages, followHistory (fun after source =>
        t.subagentHistory normalize id taskId after source sourceHasMore) fuel none none = some pages ∧
      pages.flatMap (·.events) = (t.readRows id taskId).map (·.shown agent id)

/-- Consecutive rows that go on one page are, as they are shown, within the frame together with the
prompt as it is sent. -/
def ChildRunsFit (t : ChildHistories) (id taskId agent : String) (task : Subagent)
    (sourceHasMore : Bool) : Prop :=
  ∀ front run rest, t.readRows id taskId = front ++ run ++ rest →
    Paging.Fitting (childRoom id) run →
    (t.runResponse id taskId agent task sourceHasMore run (!rest.isEmpty) none).toJson.size ≤ maxFrame

theorem history_size (r : SubagentHistory) :
    r.toJson.size = (Json.opt .str r.prompt).size + (arr (r.events.map Event.toJson)).size +
      (Json.bool r.hasMore).size + (Json.opt .f64 r.after).size + (Json.bool r.sourceHasMore).size +
      (Json.bool r.incomplete).size + (str r.source).size + 111 := by
  have hkeys : (quote "kind").utf8ByteSize = 6 ∧ (quote "prompt").utf8ByteSize = 8 ∧
      (quote "events").utf8ByteSize = 8 ∧ (quote "has_more").utf8ByteSize = 10 ∧
      (quote "after").utf8ByteSize = 7 ∧ (quote "source_has_more").utf8ByteSize = 17 ∧
      (quote "incomplete").utf8ByteSize = 12 ∧ (quote "source").utf8ByteSize = 8 ∧
      (str "subagent_history").size = 18 := by decide
  simp only [SubagentHistory.toJson, size_obj_cons, List.map_cons, List.map_nil, List.sum_cons,
    List.sum_nil, fieldSize, hkeys]
  omega

theorem event_size_ge (e : Event) : 37 ≤ e.toJson.size := by
  rw [event_size]
  omega

/-- A longer page takes more, whatever its flag and its cursor. -/
theorem runResponse_size_le {agent : String} {sourceHasMore : Bool} {run more : List ChildStreamRow}
    {a b : Bool} {after after' : Option ℕ} (h : more = [] → a = b ∧ (run ≠ [] ∨ after = after')) :
    (t.runResponse id taskId agent task sourceHasMore run a after).toJson.size ≤
      (t.runResponse id taskId agent task sourceHasMore (run ++ more) b after').toJson.size := by
  rcases more with _ | ⟨row, more⟩
  · obtain ⟨rfl, hafter⟩ := h rfl
    rw [List.append_nil]
    rcases hafter with hne | rfl
    · obtain ⟨front, c, rfl⟩ := (List.eq_nil_or_concat' run).resolve_left hne
      simp [runResponse]
    · exact le_rfl
  · rw [history_size, history_size]
    simp only [runResponse, List.map_append, List.map_map]
    have hevents : (arr (run.map (Event.toJson ∘ (·.shown agent id)))).size + 38 ≤
        (arr (run.map (Event.toJson ∘ (·.shown agent id)) ++
          (row :: more).map (Event.toJson ∘ (·.shown agent id)))).size + 1 := by
      have hlong := @size_arr_add_one (run.map (Event.toJson ∘ (·.shown agent id)) ++
        (row :: more).map (Event.toJson ∘ (·.shown agent id))) (by simp)
      have hshort := size_arr_le (run.map (Event.toJson ∘ (·.shown agent id)))
      have hrow := event_size_ge (row.shown agent id)
      simp only [List.map_append, List.sum_append, List.map_cons, List.sum_cons,
        Function.comp_apply] at hlong ⊢
      omega
    have ha := size_bool_le a
    have hb := size_bool_le b
    have hafter := size_opt_f64_le ((run.getLast?.map (·.seq)).or after)
    omega

theorem rowsAfter_suffix (h : t.Readable id taskId x task) (after : Option ℕ) :
    rowsAfter (t.readRows id taskId) after <:+ t.readRows id taskId := by
  rw [rowsAfter_eq_above]
  exact Paging.above_suffix ((readRows_sorted h).imp fun h => Nat.succ_lt_succ h) _

theorem rowsAfter_none (rows : List ChildStreamRow) : rowsAfter rows none = rows :=
  List.filter_eq_self.2 fun _ _ => rfl

/-- Rows before a run are before the cursor that starts it. -/
theorem rowsAfter_split (h : t.Readable id taskId x task) {front tail : List ChildStreamRow}
    (hsplit : t.readRows id taskId = front ++ tail) :
    rowsAfter (t.readRows id taskId) (front.getLast?.map (·.seq)) = tail := by
  rcases List.eq_nil_or_concat' front with rfl | ⟨front, a, rfl⟩
  · rw [hsplit]
    exact rowsAfter_none tail
  · have hall : rowsAfter (t.readRows id taskId) none = front ++ a :: tail := by
      rw [rowsAfter_none, hsplit, List.append_assoc, List.singleton_append]
    rw [List.getLast?_append, List.getLast?_singleton, Option.some_or, Option.map_some]
    exact rowsAfter_last (readRows_sorted h) hall

theorem fitting_singleton (row : ChildStreamRow) : Paging.Fitting (childRoom id) [row] :=
  Paging.Fitting.nil.concat (childRoom_nil row)

/-- When every answer fits, so does every run: the page that starts where it starts holds it. -/
theorem EveryChildPageFits.runsFit (h : t.Readable id taskId x task) {sourceHasMore : Bool}
    (hfits : t.EveryChildPageFits normalize id taskId x.agent sourceHasMore) :
    t.ChildRunsFit id taskId x.agent task sourceHasMore := by
  intro front run rest hsplit hrun
  have hpage (after : Option ℕ) : (t.runResponse id taskId x.agent task sourceHasMore
      (t.pageRun id taskId after).1 (!(t.pageRun id taskId after).2.isEmpty) after).toJson.size ≤
      maxFrame := by
    have hask := subagentHistory_page normalize h sourceHasMore after
      (some (sourceName (t.readsNative id taskId)))
    rw [show t.readAfter id taskId after (some (sourceName (t.readsNative id taskId))) = after from
      if_pos rfl] at hask
    exact hfits.fits _ _ _ hask
  rcases eq_or_ne run [] with rfl | hne
  · -- the first page is not empty, and has the prompt too
    obtain ⟨hfirst, -, hempty⟩ := @pageRun_split t id taskId none
    have hpos : (t.pageRun id taskId none).1 ≠ [] := fun hnil => by
      have hleft : (t.pageRun id taskId none).2 = [] := by
        by_contra hleft
        exact hempty hleft hnil
      rw [hnil, hleft, rowsAfter_none] at hfirst
      exact readRows_ne_nil h hfirst.symm
    refine le_trans ?_ (hpage none)
    have := @runResponse_size_le t id taskId task x.agent sourceHasMore [] _ (!rest.isEmpty)
      (!(t.pageRun id taskId none).2.isEmpty) none none fun hnil => absurd hnil hpos
    rwa [List.nil_append] at this
  · rw [List.append_assoc] at hsplit
    have hafter := rowsAfter_split h hsplit
    refine le_trans ?_ (hpage (front.getLast?.map (·.seq)))
    obtain ⟨hpaged, -, -⟩ := @pageRun_split t id taskId (front.getLast?.map (·.seq))
    have hpre := hrun.prefix_takeRun rest
    rw [← hafter] at hpre
    obtain ⟨more, hmore⟩ := hpre
    have hmore : run ++ more = (t.pageRun id taskId (front.getLast?.map (·.seq))).1 := hmore
    rw [← hmore]
    refine runResponse_size_le fun hnil => ⟨?_, .inl hne⟩
    rw [← hmore, hnil, List.append_nil, hafter] at hpaged
    rw [List.append_cancel_left hpaged]

/-- A text of control characters. -/
def controls (n : ℕ) : String := String.ofList (List.replicate n (Char.ofNat 1))

/-- A child that such a text started, with one row in its history. -/
def started : Subagent where
  id := "c"
  nativeId := "c"
  toolUseId := some "t"
  title := "子智能体"
  agentType := none
  status := .running
  summary := none
  lastTool := none
  startedAt := none
  updatedAt := 0

def startedBy (prompt : String) : ChildHistories where
  transcripts :=
    { store :=
        { sessions := [Store.answeredSession]
          subagents := [{ sessionId := "s", task := started }]
          events := [{ seq := 1, sessionId := "s", atMs := 0
                       event := .tool "t" "Agent" (.obj [("prompt", .str prompt)]) }]
          lastSeq := 1 }
      stream := [{ sessionId := "s", taskId := "c", seq := 1, atMs := 0, event := .text "" }] }

theorem startedBy_prompt (prompt : String) :
    (startedBy prompt).transcripts.store.childPrompt "s" started = some prompt := by
  simp [Store.childPrompt, startedBy, started, Store.sessionLog, get?, str?]

theorem startedBy_readable {prompt : String} (h : prompt.utf8ByteSize ≤ maxFrame / 2) :
    (startedBy prompt).Readable "s" "c" Store.answeredSession started where
  found := Store.session_eq_ok.2 rfl
  child := rfl
  source := .inr rfl
  keyed := List.nodup_singleton 1
  prompt text htext := by
    rw [startedBy_prompt, Option.mem_some_iff] at htext
    rwa [← htext]
  sizes row hrow := by
    obtain rfl := List.mem_singleton.1 hrow
    have hcost : ChildStreamRow.cost "s"
        { sessionId := "s", taskId := "c", seq := 1, atMs := 0, event := .text "" } = 154 := by decide
    have hframe : maxFrame = 2097152 := rfl
    rw [hcost, startedBy_prompt, Option.map_some, Option.getD_some]
    omega

theorem controls_bytes (n : ℕ) : (controls n).utf8ByteSize = n := by
  have hascii : ∀ c ∈ List.replicate n (Char.ofNat 1), c.toNat < 128 := fun c hc => by
    rw [List.eq_of_mem_replicate hc]
    decide
  rw [controls, ← String.utf8Len_toList, String.toList_ofList, utf8Len_of_ascii hascii,
    List.length_replicate]

/-- Each of them takes six bytes of a JSON text. -/
theorem size_str_controls (n : ℕ) : (str (controls n)).size = 6 * n + 2 := by
  have hescape : (escape (List.replicate n (Char.ofNat 1))).utf8ByteSize = 6 * n := by
    have hone : (escapeChar (Char.ofNat 1)).utf8ByteSize = 6 := by decide
    induction n with
    | zero => rfl
    | succ n ih =>
      rw [List.replicate_succ, escape, String.utf8ByteSize_append, ih, hone]
      omega
  rw [size_str, controls, String.toList_ofList, hescape]

/-- A prompt that passes the checks, and does not fit the frame as it is sent. -/
theorem controls_overflow_of {n : ℕ} (hlow : 350000 ≤ n) (hhigh : n ≤ 1048576) :
    (startedBy (controls n)).Readable "s" "c" Store.answeredSession started ∧
      ¬(startedBy (controls n)).EveryChildPageFits (fun _ e => .ok e) "s" "c" "claude" false := by
  have hframe : maxFrame = 2097152 := rfl
  have hread : (startedBy (controls n)).Readable "s" "c" Store.answeredSession started :=
    startedBy_readable (by rw [controls_bytes]; omega)
  refine ⟨hread, fun h => ?_⟩
  have hruns := EveryChildPageFits.runsFit (x := Store.answeredSession) hread h [] []
    ((startedBy (controls n)).readRows "s" "c") rfl .nil
  have hcontrols := size_str_controls n
  rw [history_size] at hruns
  simp only [runResponse, startedBy_prompt, Json.opt] at hruns
  omega

end ChildHistories

end LatteWork
