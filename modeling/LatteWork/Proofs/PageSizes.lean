import LatteWork.Proofs.HistoryPages
import LatteWork.Wire.JsonSize

/-!
# Pages against the frame

What a row costs a page is counted before its images are projected, and a text before it is
escaped. A page of `history` fits the frame all the same (`history_fits`). A page of `events` fits
as long as the notices put for images leave it room: `pages_fit_iff` says when.
-/

namespace LatteWork

open Fallible Json

/-- The notice put for an image is 88 bytes, and the block it replaces has at least 26. -/
theorem toolBlock_size_le (remaining images : ℕ) (block : Json) :
    26 * (toolBlock remaining images block).1.size ≤ 88 * block.size := by
  unfold toolBlock
  split
  · exact Nat.mul_le_mul_right _ (by decide)
  rename_i htype
  split
  · exact Nat.mul_le_mul_right _ (by decide)
  rename_i source hsource
  obtain ⟨t, ht, hstr⟩ := Option.bind_eq_some_iff.1 (not_not.1 htype)
  obtain ⟨fields, rfl, hsourceMem⟩ := get?_eq_some hsource
  obtain ⟨_, hfields, htypeMem⟩ := get?_eq_some ht
  obtain rfl : fields = _ := by simpa using hfields
  rw [str?_eq_some] at hstr
  subst hstr
  have hroom := size_of_two_fields htypeMem hsourceMem (by simp)
  have hlabel : fieldSize ("type", .str "image") = 14 := by decide
  have hkey : fieldSize ("source", source) = 9 + source.size := by
    have : (quote "source").utf8ByteSize = 8 := by decide
    rw [fieldSize, this]
  rw [hlabel, hkey] at hroom
  simp only
  split
  · -- the image is shown: its data was in the block
    rename_i hshown
    obtain ⟨-, hmime, hdata, -⟩ := hshown
    rcases hd : (source.get? "data").bind str? with _ | data
    · simp [hd] at hdata
    · obtain ⟨d, hd', hstr⟩ := Option.bind_eq_some_iff.1 hd
      obtain ⟨inner, rfl, hdataMem⟩ := get?_eq_some hd'
      rw [str?_eq_some] at hstr
      subst hstr
      have hinner := size_lt_of_mem hdataMem
      have hmime : (str ((((obj inner).get? "media_type").bind str?).getD "")).size ≤ 12 := by
        generalize (((obj inner).get? "media_type").bind str?).getD "" = mime at hmime ⊢
        simp only [List.mem_cons, List.not_mem_nil, or_false] at hmime
        rcases hmime with rfl | rfl | rfl | rfl <;> decide
      have hkeys : (quote "data_base64").utf8ByteSize = 13 ∧ (quote "mime_type").utf8ByteSize = 11 ∧
          (quote "type").utf8ByteSize = 6 ∧ (str "image").size = 7 := by decide
      simp only [Option.getD_some, size_obj_cons, List.map_cons, List.map_nil, List.sum_cons,
        List.sum_nil, hkeys, fieldSize] at hinner hmime ⊢
      omega
  · have hnotice : (obj [("text", .str "图片未展示：格式不支持或内容超过预览上限。"),
        ("type", .str "text")]).size = 88 := by decide
    rw [hnotice]
    omega

theorem toolBlocks_size_le : ∀ (blocks : List Json) (remaining images : ℕ),
    26 * ((toolBlocks remaining images blocks).map fun v => v.size + 1).sum ≤
      88 * (blocks.map fun v => v.size + 1).sum
  | [], _, _ => by simp [toolBlocks]
  | block :: rest, remaining, images => by
    have hblock := toolBlock_size_le remaining images block
    rcases htb : toolBlock remaining images block with ⟨shown, remaining', images'⟩
    have hrest := toolBlocks_size_le rest remaining' images'
    rw [htb] at hblock
    simp only [toolBlocks, htb, List.map_cons, List.sum_cons] at hblock ⊢
    omega

theorem toolContent_size_le (content : Json) :
    26 * (toolContent content).size ≤ 88 * content.size := by
  cases content with
  | arr blocks =>
    rcases blocks with _ | ⟨block, rest⟩
    · decide
    · have hsum := toolBlocks_size_le (block :: rest) (384 * 1024) 0
      have hraw := size_arr_add_one (List.cons_ne_nil block rest)
      have hle := size_arr_le (toolBlocks (384 * 1024) 0 (block :: rest))
      have hpos : 1 ≤ (arr (block :: rest)).size := by
        rw [size_arr_cons]
        omega
      rw [toolContent]
      omega
  | _ => exact Nat.mul_le_mul_right _ (by decide)

/-- Projecting the images of a row makes at most 88 bytes of 26. -/
theorem presented_bytes_le (agent : String) (data : EventKind) :
    26 * (presented agent data).bytes ≤ 88 * data.bytes := by
  unfold presented
  split
  · cases data with
    | toolResult toolId content isError =>
      have hcontent := toolContent_size_le content
      simp only [normalizeHistoryEvent, EventKind.bytes, EventKind.toJson, EventKind.kind,
        EventKind.fields, size_obj_cons, List.map_cons, List.map_nil, List.sum_cons, List.sum_nil, fieldSize]
      split <;> omega
    | _ => exact Nat.mul_le_mul_right _ (by decide)
  · exact Nat.mul_le_mul_right _ (by decide)

theorem presentationData_bytes_le (row : EventRow) : row.presentationData.bytes ≤ 524288 := by
  unfold EventRow.presentationData
  split
  · decide
  · omega

/-- A text costs its escaped bytes and a frame of its own. -/
theorem text_bytes (t : String) :
    (EventKind.text t).bytes = (escape t.toList).utf8ByteSize + 25 := by
  have hkeys : (quote "kind").utf8ByteSize = 6 ∧ (quote "text").utf8ByteSize = 6 ∧
      (str "text").size = 6 := by decide
  simp only [EventKind.bytes, EventKind.toJson, EventKind.fields, EventKind.kind, size_obj_cons,
    List.map_cons, List.map_nil, List.sum_cons, List.sum_nil, fieldSize, size_str t, hkeys]
  omega

/-- An event of an answer: what it says, the session's name, and at most 183 bytes. -/
theorem event_size (e : Event) :
    e.toJson.size = e.event.bytes + (str e.sessionId).size + (f64 e.seq).size + (f64 e.atMs).size +
      37 := by
  have hkeys : (quote "seq").utf8ByteSize = 5 ∧ (quote "session_id").utf8ByteSize = 12 ∧
      (quote "at").utf8ByteSize = 4 ∧ (quote "event").utf8ByteSize = 7 := by decide
  simp only [Event.toJson, EventKind.bytes, size_obj_cons, List.map_cons, List.map_nil,
    List.sum_cons, List.sum_nil, fieldSize, hkeys]
  omega

theorem event_size_le (e : Event) :
    e.toJson.size ≤ e.event.bytes + (str e.sessionId).size + 181 := by
  have hseq := size_f64_le e.seq
  have hat := size_f64_le e.atMs
  rw [event_size]
  omega

/-- Bytes of a list of events, a comma each. -/
def eventsSize (events : List Event) : ℕ := (events.map fun e => e.toJson.size + 1).sum

@[simp]
theorem eventsSize_cons (e : Event) (events : List Event) :
    eventsSize (e :: events) = e.toJson.size + 1 + eventsSize events := rfl

theorem size_arr_events_le (events : List Event) :
    (arr (events.map Event.toJson)).size ≤ eventsSize events + 2 := by
  have := size_arr_le (events.map Event.toJson)
  rwa [List.map_map] at this

/-- A text that joins adds its escaped bytes. -/
theorem eventsSize_joinText {e : Event} {l : List Event} {t : String} (he : e.event = .text t)
    (hl : Store.headText l = true) :
    eventsSize (joinText e l) = (escape t.toList).utf8ByteSize + eventsSize l := by
  rcases l with _ | ⟨f, rest⟩
  · simp [Store.headText] at hl
  · obtain ⟨u, hu⟩ : ∃ u, f.event = .text u := by
      simp only [Store.headText, List.head?_cons, Option.any_some] at hl
      obtain ⟨u, hu⟩ := Option.isSome_iff_exists.1 hl
      exact ⟨u, EventKind.asText_eq_some.1 hu⟩
    simp only [joinText, he, hu, EventKind.asText_text, eventsSize_cons, event_size, text_bytes,
      String.toList_append, escape_append, String.utf8ByteSize_append]
    omega

namespace Store

variable {s : Store} {id : String} {x : Session}

/-- A page of `history`: six bytes for each byte counted, and more than the budget only for a
single row. -/
def Weighed (agent id : String) (bytes : ℕ) (stretch : List EventRow) : Prop :=
  eventsSize (coalesce (stretch.map (EventRow.shown agent id))) ≤ 6 * bytes ∧
    (bytes ≤ 256 * 1024 ∨ ∃ row, stretch = [row])

theorem ScanInv.weighed {agent : String} {scan : HistoryScan} {stretch : List EventRow}
    {row : EventRow} (h : ScanInv agent id scan stretch)
    (hgo : scan.stops id row.presentationData (presented agent row.presentationData) = false)
    (hw : Weighed agent id scan.bytes stretch) :
    Weighed agent id
      (scan.bytes + scan.cost id row.presentationData (presented agent row.presentationData))
      (row :: stretch) := by
  obtain ⟨hw, _⟩ := hw
  have hgrow := presented_bytes_le agent row.presentationData
  have hevent := event_size_le (row.shown agent id)
  have hid := size_str_le id
  have hhead : headText (coalesce (stretch.map (EventRow.shown agent id))) =
      headText scan.events := by
    rw [← h.shown, flushHistoryText_head]
  have hshown := row.shown_event agent id
  rw [hshown, EventRow.shown_sessionId] at hevent
  refine ⟨?_, ?_⟩
  · rw [List.map_cons, coalesce]
    rcases ht : (presented agent row.presentationData).asText with _ | t
    · rw [joinText_apart (by rw [hshown, ht]; rfl), eventsSize_cons]
      simp only [HistoryScan.cost, ht]
      omega
    · have htext := EventKind.asText_eq_some.1 ht
      have hescape := size_escape_le t.toList
      have hbytes := text_bytes t
      rw [String.utf8Len_toList] at hescape
      rw [htext] at hevent
      by_cases hj : headText scan.events = true
      · rw [eventsSize_joinText (hshown.trans htext) (hhead.trans hj)]
        simp only [HistoryScan.cost, ht]
        omega
      · have hjoins : scan.joins (presented agent row.presentationData) = false := by
          rw [HistoryScan.joins, ht]
          simpa using hj
        rw [joinText_apart (by rw [hhead]; simp [hj]), eventsSize_cons]
        simp only [HistoryScan.cost, ht, hjoins, Bool.false_eq_true, if_false]
        omega
  · rcases hs : stretch with _ | ⟨r, rest⟩
    · exact .inr ⟨row, rfl⟩
    · have hne : scan.events.isEmpty = false := by
        rcases he : scan.events with _ | ⟨e, l⟩
        · simp [h.empty.1 he] at hs
        · rfl
      refine .inl ?_
      simp only [HistoryScan.stops, hne, Bool.or_eq_false_iff, Bool.and_eq_false_iff,
        decide_eq_false_iff_not, Bool.not_false, Bool.true_eq_false, or_false, not_lt] at hgo
      exact hgo.2

/-- An answer: its events, the session's record and at most 174 bytes. -/
theorem history_response_size_le (events : List Event) (record : Session)
    (hasMore needsEarlier : Bool) (before : Option ℕ) :
    (Response.history events record hasMore needsEarlier before).toJson.size ≤
      eventsSize events + record.toJson.size + 174 := by
  have hkeys : (quote "kind").utf8ByteSize = 6 ∧ (quote "events").utf8ByteSize = 8 ∧
      (quote "session").utf8ByteSize = 9 ∧ (quote "has_more").utf8ByteSize = 10 ∧
      (quote "needs_earlier").utf8ByteSize = 15 ∧ (quote "before").utf8ByteSize = 8 ∧
      (str "history").size = 9 := by decide
  have hevents := size_arr_events_le events
  have hmore := (size_bool_le hasMore).2
  have hneeds := (size_bool_le needsEarlier).2
  have hbefore := size_opt_f64_le before
  simp only [Response.toJson, size_obj_cons, List.map_cons, List.map_nil, List.sum_cons,
    List.sum_nil, fieldSize, hkeys]
  omega

@[simp]
theorem projectState_agent (isOpen busy : Bool) (x : Session) :
    (x.projectState isOpen busy).agent = x.agent := rfl

/-- A session's record has room for the session's name. -/
theorem session_size_lt (x : Session) : (str x.id).size < x.toJson.size :=
  size_lt_of_mem (f := ("id", str x.id))
    (List.mem_append_left _ (List.mem_append_left _ List.mem_cons_self))

/-- A page of `history` fits the frame, whatever the texts escape to. -/
theorem history_fits {isOpen busy : Bool} {before : Option ℕ} {r : Response}
    (hx : s.session id = .ok x)
    (hrec : (x.projectState isOpen busy).toJson.size ≤ 128 * 1024)
    (h : s.historyResponse isOpen busy id before = .ok r) : r.toJson.size ≤ maxFrame := by
  obtain ⟨page, stretch, bytes, hpage, hevents, -, -, hsize, hbytes⟩ :=
    history_cut (P := Weighed x.agent id) (fun _ _ _ hinv hgo hw => hinv.weighed hgo hw) hx
      ⟨Nat.zero_le _, .inl (Nat.zero_le _)⟩ before
  simp only [historyResponse, hx, hpage, bind, Except.bind, Except.ok.injEq] at h
  subst h
  have hresponse := history_response_size_le page.events (x.projectState isOpen busy) page.hasMore
    page.needsEarlier page.before
  rw [hevents] at hresponse
  have hframe : maxFrame = 2097152 := rfl
  rcases hbytes with hbudget | ⟨row, rfl⟩
  · rw [hevents]
    omega
  · have hid := session_size_lt (x.projectState isOpen busy)
    rw [show (x.projectState isOpen busy).id = id from (session_mem hx).2] at hid
    have hgrow := presented_bytes_le x.agent row.presentationData
    have hraw := presentationData_bytes_le row
    have hevent := event_size_le (row.shown x.agent id)
    rw [EventRow.shown_event, EventRow.shown_sessionId] at hevent
    rw [hevents]
    simp only [List.map_cons, List.map_nil, coalesce, joinText, eventsSize_cons] at hresponse ⊢
    have hnil : eventsSize [] = 0 := rfl
    omega

/-- What `events` counts for a row. -/
def rowCost (id : String) (row : EventRow) : ℕ :=
  row.presentationData.bytes + id.utf8ByteSize + 96

/-- Consecutive rows that `events` sends on one page. -/
def Budgeted (id : String) (run : List EventRow) : Prop :=
  run.length ≤ 200 ∧ (run.map (rowCost id)).sum ≤ 1024 * 1024

theorem Budgeted.front {run more : List EventRow} (h : Budgeted id (run ++ more)) :
    Budgeted id run := by
  obtain ⟨hlen, hsum⟩ := h
  rw [List.length_append] at hlen
  rw [List.map_append, List.sum_append] at hsum
  exact ⟨by omega, by omega⟩

/-- The loop sends rows as long as they are within the budget. -/
theorem eventsScan_reads (hx : s.session id = .ok x) :
    ∀ rows front : List EventRow, Budgeted id front →
      ∃ taken rest, s.eventsScan id (front.map (EventRow.shown x.agent id))
          (front.map (rowCost id)).sum rows =
          .ok ((front ++ taken).map (EventRow.shown x.agent id), !rest.isEmpty) ∧
        rows = taken ++ rest ∧ Budgeted id (front ++ taken) ∧
        ∀ row ∈ rest.head?, ¬Budgeted id (front ++ taken ++ [row])
  | [], front, hfront => ⟨[], [], by simp [eventsScan], rfl, by simpa using hfront, by simp⟩
  | row :: rows, front, hfront => by
    have hcost : row.presentationData.bytes + id.utf8ByteSize + 96 = rowCost id row := rfl
    simp only [eventsScan, List.length_map, hcost]
    split
    · rename_i hfull
      refine ⟨[], row :: rows, by simp, rfl, by simpa using hfront, fun r hr => ?_⟩
      obtain rfl : row = r := by simpa using hr
      rintro ⟨hlen, hsum⟩
      simp only [List.append_nil, List.length_append, List.length_singleton, List.map_append,
        List.map_cons, List.map_nil, List.sum_append, List.sum_singleton] at hlen hsum
      omega
    · rename_i hroom
      have hgrown : Budgeted id (front ++ [row]) := by
        obtain ⟨hlen, _⟩ := hfront
        refine ⟨?_, ?_⟩
        · rw [List.length_append, List.length_singleton]
          omega
        · rw [List.map_append, List.sum_append, List.map_singleton, List.sum_singleton]
          omega
      obtain ⟨taken, rest, hok, hrows, hbudget, hmax⟩ := eventsScan_reads hx rows (front ++ [row]) hgrown
      refine ⟨row :: taken, rest, ?_, by rw [hrows]; rfl, by simpa using hbudget, by simpa using hmax⟩
      simp only [presentationEvent_eq hx, bind, Except.bind]
      simpa [EventRow.shown] using hok

/-- A page of `events` is the longest run within the budget of what is above its cursor. -/
theorem events_page (hx : s.session id = .ok x) (after : ℕ) :
    ∃ run rest, Paging.above EventRow.seq (s.sessionLog id) after = run ++ rest ∧
      s.pollEvents id after = .ok (run.map (EventRow.shown x.agent id), !rest.isEmpty) ∧
      Budgeted id run ∧ ∀ row ∈ rest.head?, ¬Budgeted id (run ++ [row]) := by
  obtain ⟨taken, rest, hok, hrows, hbudget, hmax⟩ :=
    eventsScan_reads hx (s.eventsRows id after) [] ⟨Nat.zero_le _, Nat.zero_le _⟩
  rw [List.nil_append] at hok hbudget hmax
  generalize habove : Paging.above EventRow.seq (s.sessionLog id) after = above
  have hlimit : above.take 201 = taken ++ rest := by rw [← hrows, ← habove]; rfl
  refine ⟨taken, rest ++ above.drop 201, ?_, ?_, hbudget, ?_⟩
  · rw [← List.append_assoc, ← hlimit, List.take_append_drop]
  · rw [pollEvents]
    refine hok.trans ?_
    rcases rest with _ | ⟨row, rest⟩
    · -- fewer than 201 rows came back, so none was cut off
      have hshort : above.length ≤ 201 := by
        have hlen : (above.take 201).length ≤ 200 := by
          rw [hlimit, List.append_nil]
          exact hbudget.1
        rw [List.length_take] at hlen
        omega
      simp [List.drop_eq_nil_of_le hshort]
    · simp
  · rcases rest with _ | ⟨row, rest⟩
    · intro row hrow
      have hlen : (above.take 201).length ≤ 200 := by
        rw [hlimit, List.append_nil]
        exact hbudget.1
      rw [List.length_take] at hlen
      rw [List.drop_eq_nil_of_le (by omega)] at hrow
      simp at hrow
    · simpa using hmax

/-- Consecutive rows of the session that go on one page of `events` are, as they are shown, within
the frame together with the session's record. -/
def RunsFit (s : Store) (id : String) (record : Session) : Prop :=
  ∀ front run rest : List EventRow, s.sessionLog id = front ++ run ++ rest → Budgeted id run →
    (Response.events (run.map (EventRow.shown record.agent id)) record (!rest.isEmpty)).toJson.size ≤
      maxFrame

/-- Every answer that carries a part of the session's log fits the frame, and polling goes on until
the log was sent once. -/
structure EveryPageFits (s : Store) (isOpen busy : Bool) (id : String) (agent : String) : Prop where
  events : ∀ after r, s.pollResponse isOpen busy id after = .ok r → r.toJson.size ≤ maxFrame
  history : ∀ before r, s.historyResponse isOpen busy id before = .ok r → r.toJson.size ≤ maxFrame
  progress : ∀ after page, s.pollEvents id after = .ok (page, true) → page ≠ []
  once : ∀ fuel, (s.sessionLog id).length < fuel →
    ∃ pages, Paging.followUp (fun c => (s.pollEvents id c).toOption) Event.seq fuel 0 = some pages ∧
      pages.flatten = (s.sessionLog id).map (EventRow.shown agent id)

theorem events_response_size (events : List Event) (record : Session) (hasMore : Bool) :
    (Response.events events record hasMore).toJson.size =
      (arr (events.map Event.toJson)).size + record.toJson.size + (Json.bool hasMore).size + 50 := by
  have hkeys : (quote "kind").utf8ByteSize = 6 ∧ (quote "events").utf8ByteSize = 8 ∧
      (quote "session").utf8ByteSize = 9 ∧ (quote "has_more").utf8ByteSize = 10 ∧
      (str "events").size = 8 := by decide
  simp only [Response.toJson, size_obj_cons, List.map_cons, List.map_nil, List.sum_cons,
    List.sum_nil, fieldSize, hkeys]
  omega

/-- A longer page takes more, whatever its flag. -/
theorem events_response_size_le {events more : List Event} {record : Session} {a b : Bool}
    (h : more = [] → a = b) : (Response.events events record a).toJson.size ≤
      (Response.events (events ++ more) record b).toJson.size := by
  rw [events_response_size, events_response_size]
  rcases more with _ | ⟨e, more⟩
  · rw [List.append_nil, h rfl]
  · have hlt : (arr (events.map Event.toJson)).size <
        (arr ((events ++ e :: more).map Event.toJson)).size := by
      rw [List.map_append]
      refine size_arr_lt_append (by simp) fun v hv => ?_
      obtain ⟨f, -, rfl⟩ := List.mem_map.1 hv
      rw [event_size]
      omega
    have ha := size_bool_le a
    have hb := size_bool_le b
    omega

theorem pollResponse_eq {isOpen busy : Bool} {after : ℕ} {events : List Event} {hasMore : Bool}
    (hx : s.session id = .ok x) (h : s.pollEvents id after = .ok (events, hasMore)) :
    s.pollResponse isOpen busy id after =
      .ok (.events events (x.projectState isOpen busy) hasMore) := by
  simp only [pollResponse, hx, h, bind, Except.bind]

/-- Rows before a run are below the cursor that starts it. -/
theorem above_split (hs : s.Ordered) (hpos : ∀ row ∈ s.events, 0 < row.seq)
    {front tail : List EventRow} (h : s.sessionLog id = front ++ tail) :
    ∃ after, Paging.above EventRow.seq (s.sessionLog id) after = tail := by
  have hsorted := sessionLog_ordered hs id
  rcases List.eq_nil_or_concat' front with rfl | ⟨front, a, rfl⟩
  · refine ⟨0, ?_⟩
    rw [← List.nil_append tail, ← h, Paging.above, List.filter_eq_self]
    intro row hrow
    rw [sessionLog_eq hs] at hrow
    simpa using hpos row (List.mem_filter.1 hrow).1
  · refine ⟨a.seq, ?_⟩
    have hall : Paging.above EventRow.seq (s.sessionLog id) 0 = front ++ a :: tail := by
      rw [Paging.above, List.filter_eq_self.2, h]
      · simp
      · intro row hrow
        rw [sessionLog_eq hs] at hrow
        simpa using hpos row (List.mem_filter.1 hrow).1
    exact Paging.above_last hsorted hall

/-- When polling always fits, so does every run: the page that starts where it starts holds it. -/
theorem EveryPageFits.runsFit {isOpen busy : Bool} (hx : s.session id = .ok x) (hs : s.Ordered)
    (hpos : ∀ row ∈ s.events, 0 < row.seq) (h : s.EveryPageFits isOpen busy id x.agent) :
    s.RunsFit id (x.projectState isOpen busy) := by
  intro front run rest hsplit hbudget
  rw [List.append_assoc] at hsplit
  obtain ⟨after, habove⟩ := above_split hs hpos hsplit
  obtain ⟨page, left, hpage, hpoll, hpaged, hmax⟩ := events_page hx after
  rw [habove] at hpage
  have hfits := h.events after _ (pollResponse_eq hx hpoll)
  rcases List.append_eq_append_iff.1 hpage with ⟨more, rfl, rfl⟩ | ⟨more, rfl, rfl⟩
  · refine le_trans ?_ hfits
    rw [List.map_append]
    refine events_response_size_le fun hnil => ?_
    obtain rfl : more = [] := by simpa using hnil
    rfl
  · rcases more with _ | ⟨row, more⟩
    · simpa using hfits
    · have hlonger : Budgeted id ((page ++ [row]) ++ more) := by simpa using hbudget
      exact absurd hlonger.front (hmax row (by simp))

/-- A single row is always within the budget. -/
theorem budgeted_singleton (hx : s.session id = .ok x) {isOpen busy : Bool}
    (hrec : (x.projectState isOpen busy).toJson.size ≤ 128 * 1024) (row : EventRow) :
    Budgeted id [row] := by
  have hraw := presentationData_bytes_le row
  have hid := session_size_lt (x.projectState isOpen busy)
  rw [show (x.projectState isOpen busy).id = id from (session_mem hx).2] at hid
  have hname := utf8ByteSize_le_str id
  refine ⟨by simp, ?_⟩
  rw [List.map_singleton, List.sum_singleton, rowCost]
  omega

/-- Without an image to project, the budget keeps every run within the frame. -/
theorem runsFit_of_plain {record : Session} (hid : id.utf8ByteSize ≤ 36)
    (hrec : record.toJson.size ≤ 128 * 1024)
    (hplain : ∀ row ∈ s.sessionLog id,
      presented record.agent row.presentationData = row.presentationData) :
    s.RunsFit id record := by
  intro front run rest hsplit ⟨hlen, hsum⟩
  have hmem : ∀ row ∈ run, row ∈ s.sessionLog id := fun row hrow => by
    rw [hsplit]
    exact List.mem_append_left _ (List.mem_append_right _ hrow)
  have hrows : eventsSize (run.map (EventRow.shown record.agent id)) ≤
      (run.map (rowCost id)).sum + 400 * run.length := by
    clear hlen hsum hsplit
    induction run with
    | nil => exact Nat.zero_le _
    | cons row run ih =>
      have hrest := ih fun r hr => hmem r (List.mem_cons_of_mem _ hr)
      have hevent := event_size_le (row.shown record.agent id)
      have hname := size_str_le id
      rw [EventRow.shown_event, EventRow.shown_sessionId, hplain row (hmem row List.mem_cons_self)]
        at hevent
      simp only [List.map_cons, eventsSize_cons, List.sum_cons, List.length_cons, rowCost] at hrest ⊢
      omega
  have hpage := size_arr_events_le (run.map (EventRow.shown record.agent id))
  have hflag := size_bool_le (!rest.isEmpty)
  have hframe : maxFrame = 2097152 := rfl
  rw [events_response_size]
  omega

/-- An image block without a source. -/
def emptyImage : Json := .obj [("source", .null), ("type", .str "image")]

def imageNotice : Json :=
  .obj [("text", .str "图片未展示：格式不支持或内容超过预览上限。"), ("type", .str "text")]

/-- A tool result of `n` such blocks. -/
def imageResult (n : ℕ) : EventKind := .toolResult "t" (.arr (List.replicate n emptyImage)) false

/-- An old log with two such results. -/
def imageLog (n : ℕ) : Store where
  sessions := [answeredSession]
  events :=
    [{ seq := 1, sessionId := "s", atMs := 0, event := imageResult n },
      { seq := 2, sessionId := "s", atMs := 0, event := imageResult n }]
  lastSeq := 2

theorem toolBlocks_emptyImage (remaining images : ℕ) : ∀ n,
    toolBlocks remaining images (List.replicate n emptyImage) = List.replicate n imageNotice
  | 0 => rfl
  | n + 1 => by
    have hblock : toolBlock remaining images emptyImage = (imageNotice, remaining, images) := by
      simp [toolBlock, emptyImage, imageNotice, get?, str?, List.lookup_cons]
    simp only [List.replicate_succ, toolBlocks, hblock, toolBlocks_emptyImage remaining images n]

theorem size_arr_replicate (v : Json) {n : ℕ} (hn : 0 < n) :
    (arr (List.replicate n v)).size = n * (v.size + 1) + 1 := by
  have hne : List.replicate n v ≠ [] := by
    rw [Ne, List.replicate_eq_nil_iff]
    omega
  have := size_arr_add_one hne
  rw [List.map_replicate, List.sum_replicate_nat] at this
  omega

theorem toolResult_bytes (content : Json) :
    (EventKind.toolResult "t" content false).bytes = content.size + 59 := by
  have hkeys : (quote "kind").utf8ByteSize = 6 ∧ (quote "id").utf8ByteSize = 4 ∧
      (quote "content").utf8ByteSize = 9 ∧ (quote "is_error").utf8ByteSize = 10 ∧
      (str "tool_result").size = 13 ∧ (str "t").size = 3 ∧ (Json.bool false).size = 5 := by decide
  simp only [EventKind.bytes, EventKind.toJson, EventKind.kind, EventKind.fields, size_obj_cons,
    List.map_cons, List.map_nil, List.sum_cons, List.sum_nil, fieldSize, hkeys]
  omega

theorem imageResult_bytes {n : ℕ} (hn : 0 < n) : (imageResult n).bytes = 31 * n + 60 := by
  have hblock : emptyImage.size = 30 := by decide
  rw [imageResult, toolResult_bytes, size_arr_replicate _ hn, hblock]
  omega

theorem imageResult_mentionsSource {n : ℕ} (hn : 0 < n) :
    (imageResult n).mentionsSource = true := by
  have hblock : "\"source\"".toList <:+: emptyImage.render.toList :=
    ⟨"\x7b".toList, ":null,\"type\":\"image\"\x7d".toList, by decide⟩
  have hcontent := infix_render_arr
    (List.mem_replicate.2 ⟨Nat.pos_iff_ne_zero.1 hn, rfl⟩ : emptyImage ∈ List.replicate n emptyImage)
  have hfield : ("content", arr (List.replicate n emptyImage)) ∈
      ("kind", str (imageResult n).kind) :: (imageResult n).fields := by
    simp [imageResult, EventKind.fields]
  have hrow := infix_render_obj hfield
  unfold EventKind.mentionsSource
  exact decide_eq_true ((hblock.trans hcontent).trans hrow)

theorem presented_imageResult_bytes {n : ℕ} (hn : 0 < n) :
    (presented "claude" (imageResult n)).bytes = 89 * n + 60 := by
  have hblock : imageNotice.size = 88 := by decide
  have hnotice : presented "claude" (imageResult n) =
      .toolResult "t" (.arr (List.replicate n imageNotice)) false := by
    rw [presented, if_pos ⟨rfl, imageResult_mentionsSource hn⟩, imageResult, normalizeHistoryEvent,
      if_pos rfl, toolContent, toolBlocks_emptyImage]
  rw [hnotice, toolResult_bytes, size_arr_replicate _ hn, hblock]
  omega

/-- Two results that fit one page as they are stored, and not as they are shown. -/
theorem imageLog_overflows_of {n : ℕ} (hlow : 12000 ≤ n) (hhigh : n ≤ 16900) :
    ¬(imageLog n).EveryPageFits false false "s" "claude" := by
  intro h
  have hn : 0 < n := by omega
  have hraw := imageResult_bytes hn
  have hshown := presented_imageResult_bytes hn
  have hdata : ∀ seq, EventRow.presentationData ⟨seq, "s", 0, imageResult n⟩ = imageResult n :=
    fun seq => if_neg (by simp only [hraw]; omega)
  have hs : (imageLog n).Ordered := by simp [Ordered, imageLog]
  have hlog : (imageLog n).sessionLog "s" = (imageLog n).events := by
    rw [sessionLog_eq hs]
    simp [imageLog]
  have hbudget : Budgeted "s" (imageLog n).events := by
    have hname : "s".utf8ByteSize = 1 := rfl
    refine ⟨by simp [imageLog], ?_⟩
    simp only [imageLog, List.map_cons, List.map_nil, List.sum_cons, List.sum_nil, rowCost, hdata,
      hraw, hname]
    omega
  have hx : (imageLog n).session "s" = .ok answeredSession := session_eq_ok.2 rfl
  have hfits := h.runsFit hx hs (by simp [imageLog]) [] (imageLog n).events [] (by simp [hlog])
    hbudget
  have hframe : maxFrame = 2097152 := rfl
  have hagent : answeredSession.agent = "claude" := rfl
  rw [events_response_size] at hfits
  simp only [imageLog, List.map_cons, List.map_nil, size_arr_cons, List.sum_cons, List.sum_nil,
    event_size, EventRow.shown, hdata, projectState_agent, hagent, hshown] at hfits
  omega

end Store

end LatteWork
