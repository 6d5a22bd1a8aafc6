import LatteWork.Lib.OrdMap
import LatteWork.Store.Transcripts

/-!
# The history of a child agent

What a child did, in full: the events its parent's stream carried, or those read page by page from
the agent's own transcript file, with the cursor that says how far the file was read. A client
reads it forwards.
-/

namespace LatteWork

open Fallible Table

/-- `ChildHistoryCursor`. `handbacks` are the reports that no result has confirmed yet. -/
structure ChildHistoryCursor where
  offset : ℕ := 0
  identity : String := ""
  hasMore : Bool := false
  pendingTail : Bool := false
  handbacks : OrdMap String String := OrdMap.empty
  deriving DecidableEq, Inhabited

/-- Lines of the transcript file may be missing. -/
def ChildHistoryCursor.incomplete (cursor : ChildHistoryCursor) (task : Subagent)
    (native sourceHasMore : Bool) : Bool :=
  native && ((cursor.hasMore && !sourceHasMore) || (cursor.pendingTail && !task.status.active))

/-- `ChildHistoryPage`. -/
structure ChildHistoryPage where
  events : List Event
  cursor : ChildHistoryCursor
  hasMore : Bool
  deriving Inhabited

/-- A row of `subagent_history_sources`. -/
structure ChildSourceRow where
  sessionId : String
  taskId : String
  cursor : ChildHistoryCursor
  deriving Inhabited

/-- The database with the histories of child agents. `native` are the rows of `subagent_history`
whose source is the transcript file; those of the stream are in `transcripts`. -/
structure ChildHistories where
  transcripts : Transcripts
  native : List ChildStreamRow := []
  sources : List ChildSourceRow := []

/-- `Response::SubagentHistory`. -/
structure SubagentHistory where
  prompt : Option String
  events : List Event
  hasMore : Bool
  after : Option ℕ
  sourceHasMore : Bool
  incomplete : Bool
  source : String
  deriving Inhabited

def SubagentHistory.toJson (r : SubagentHistory) : Json :=
  .obj [("kind", .str "subagent_history"), ("prompt", .opt .str r.prompt),
    ("events", .arr (r.events.map Event.toJson)), ("has_more", .bool r.hasMore),
    ("after", .opt .f64 r.after), ("source_has_more", .bool r.sourceHasMore),
    ("incomplete", .bool r.incomplete), ("source", .str r.source)]

namespace ChildStreamRow

/-- The row is of a child of a session. -/
def «of» (id taskId : String) (row : ChildStreamRow) : Bool :=
  row.sessionId = id && row.taskId = taskId

end ChildStreamRow

namespace Store

/-- `subagent`. -/
def subagent (s : Store) (id taskId : String) : Except String Subagent := do
  let _ ← s.session id
  orError "此对话没有对应的子智能体"
    ((s.subagents.find? fun row => row.sessionId = id && row.task.id = taskId).map (·.task))

/-- The text of the newest tool call that started a child. -/
def childPrompt (s : Store) (id : String) (task : Subagent) : Option String :=
  task.toolUseId.bind fun tool =>
    (s.sessionLog id).reverse.findSome? fun row =>
      match row.event with
      | .tool called name input =>
        if name ∈ ["Agent", "Task"] ∧ called = tool then (input.get? "prompt").bind Json.str?
        else none
      | _ => none

/-- The loop of `subagent_history`, oldest row first. The flag says that rows are left. -/
def childScan (s : Store) (id : String) (prompt : ℕ) :
    List Event → ℕ → List ChildStreamRow → Except String (List Event × Bool)
  | events, _, [] => .ok (events, false)
  | events, bytes, row :: rows => do
    let size := row.event.bytes + id.utf8ByteSize + 128
    if events.length = 128 ∨ (256 * 1024 < bytes + size ∧ events.isEmpty = false) then
      .ok (events, true)
    else
      bailIf (maxFrame - 8192 < size + prompt) "单条子智能体事件超出传输范围，内容未截断"
      let event ← s.presentationEvent id row.event
      s.childScan id prompt (events ++ [{ seq := row.seq, sessionId := id, atMs := row.atMs, event }])
        (bytes + size) rows

end Store

namespace ChildHistories

/-- `child_history_cursor`. -/
def childHistoryCursor (t : ChildHistories) (id taskId : String) :
    Except String ChildHistoryCursor := do
  let _ ← t.transcripts.store.subagent id taskId
  .ok (((t.sources.find? fun row => row.sessionId = id && row.taskId = taskId).map (·.cursor)).getD {})

/-- `INSERT INTO subagent_history ... ON CONFLICT DO NOTHING`. -/
def insertNative (id taskId : String) (rows : List ChildStreamRow) (e : Event) :
    List ChildStreamRow :=
  if rows.any fun row => row.of id taskId && row.seq = e.seq then rows
  else rows ++ [{ sessionId := id, taskId, seq := e.seq, atMs := e.atMs, event := e.event }]

/-- `INSERT INTO subagent_history_sources ... ON CONFLICT DO UPDATE ... WHERE`: the cursor only
moves forward. -/
def putSource (id taskId : String) (cursor : ChildHistoryCursor) (rows : List ChildSourceRow) :
    List ChildSourceRow :=
  if rows.any fun row => row.sessionId = id && row.taskId = taskId then
    updateWhere (fun row => row.sessionId = id && row.taskId = taskId &&
      row.cursor.offset ≤ cursor.offset) (fun row => { row with cursor }) rows
  else rows ++ [{ sessionId := id, taskId, cursor }]

/-- `cache_child_history`. -/
def cacheChildHistory (t : ChildHistories) (id taskId : String) (page : ChildHistoryPage) :
    Except String ChildHistories := do
  let _ ← t.transcripts.store.subagent id taskId
  bailIf (∃ e ∈ page.events, e.sessionId ≠ id) "子智能体过程会话身份不匹配"
  .ok { t with
    native := page.events.foldl (insertNative id taskId) t.native
    sources := putSource id taskId page.cursor t.sources }

/-- The rows of a child, in the order of their numbers. -/
def sourceRows (t : ChildHistories) (id taskId : String) (native : Bool) : List ChildStreamRow :=
  ((if native then t.native else t.transcripts.stream).filter (·.of id taskId)).insertionSort
    (·.seq ≤ ·.seq)

/-- Whether the transcript file is what a client reads: it was indexed, and something was in it. -/
def readsNative (t : ChildHistories) (id taskId : String) : Bool :=
  (t.sources.any fun row => row.sessionId = id && row.taskId = taskId) &&
    t.native.any (·.of id taskId)

/-- What is answered before the child had a history. `normalize` is `normalize_child_transcript`. -/
def legacyHistory (normalize : String → List Event × Bool → Except String (List Event × Bool))
    (t : ChildHistories) (id taskId : String) (prompt : Option String) (after : Option ℕ)
    (requestedSource : Option String) : Except String SubagentHistory := do
  let snapshot ← t.transcripts.subagentTranscript id taskId
  let session ← t.transcripts.store.session id
  let (events, incomplete) ← normalize session.agent snapshot
  let after := if requestedSource = some "legacy" then after else none
  let above := (events.filter fun e => after.all (· < e.seq)).take 129
  let page := above.take 128
  .ok { prompt, events := page, hasMore := 128 < above.length
        after := (page.getLast?.map (·.seq)).or after, sourceHasMore := false, incomplete
        source := "legacy" }

def sourceName (native : Bool) : String := if native then "native" else "stream"

/-- What is answered from one source of rows. -/
def sourceHistory (t : ChildHistories) (id taskId : String) (task : Subagent)
    (prompt : Option String) (after : Option ℕ) (requestedSource : Option String)
    (native sourceHasMore : Bool) : Except String SubagentHistory := do
  let source := sourceName native
  let after := if requestedSource = some source then after else none
  let rows := ((t.sourceRows id taskId native).filter fun row => after.all (· < row.seq)).take 129
  let (events, hasMore) ←
    t.transcripts.store.childScan id ((prompt.map (·.utf8ByteSize)).getD 0) [] 0 rows
  let cursor ← t.childHistoryCursor id taskId
  .ok { prompt, events, hasMore, after := (events.getLast?.map (·.seq)).or after, sourceHasMore
        incomplete := cursor.incomplete task native sourceHasMore, source }

/-- `subagent_history`. -/
def subagentHistory (normalize : String → List Event × Bool → Except String (List Event × Bool))
    (t : ChildHistories) (id taskId : String) (after : Option ℕ) (requestedSource : Option String)
    (sourceHasMore : Bool) : Except String SubagentHistory := do
  let task ← t.transcripts.store.subagent id taskId
  let prompt := t.transcripts.store.childPrompt id task
  bailIf (∃ text ∈ prompt, maxFrame / 2 < text.utf8ByteSize) "子智能体任务指令超出传输范围，内容未截断"
  let native := t.readsNative id taskId
  if native = false ∧ t.transcripts.stream.any (·.of id taskId) = false then
    t.legacyHistory normalize id taskId prompt after requestedSource
  else
    t.sourceHistory id taskId task prompt after requestedSource native sourceHasMore

end ChildHistories

end LatteWork
