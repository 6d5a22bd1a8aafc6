import LatteWork.Agents.Messages
import LatteWork.Store.History
import LatteWork.Wire.JsonSize

/-!
# Transcripts of child agents

What a child agent says is kept twice: in full, event by event, and as a bounded snapshot whose
consecutive texts are joined as they are written. A client reads the snapshot.
-/

namespace LatteWork

open Fallible Table

/-- The longest front of a text with at most so many bytes: the loop over `is_char_boundary`. -/
def frontBytes (limit : ℕ) : List Char → List Char
  | [] => []
  | c :: rest =>
    if c.utf8Size ≤ limit then c :: frontBytes (limit - c.utf8Size) rest else []

theorem frontBytes_front : ∀ (limit : ℕ) (text : List Char), frontBytes limit text <+: text
  | _, [] => List.prefix_rfl
  | limit, c :: rest => by
    rw [frontBytes]
    split
    · exact List.prefix_cons_inj c |>.2 (frontBytes_front _ rest)
    · exact List.nil_prefix

theorem utf8Len_frontBytes_le : ∀ (limit : ℕ) (text : List Char),
    String.utf8Len (frontBytes limit text) ≤ limit
  | _, [] => Nat.zero_le _
  | limit, c :: rest => by
    rw [frontBytes]
    split
    · have := utf8Len_frontBytes_le (limit - c.utf8Size) rest
      rw [String.utf8Len_cons]
      omega
    · exact Nat.zero_le _

/-- A front that is not the whole text leaves no room for one character more. -/
theorem lt_utf8Len_frontBytes : ∀ {limit : ℕ} {text : List Char}, frontBytes limit text ≠ text →
    limit < String.utf8Len (frontBytes limit text) + 4
  | _, [], h => absurd rfl h
  | limit, c :: rest, h => by
    have hc : c.utf8Size ≤ 4 := c.utf8Size_le_four
    rw [frontBytes] at h ⊢
    split at h
    · rename_i hfits
      have := @lt_utf8Len_frontBytes (limit - c.utf8Size) rest fun he => h (by rw [he])
      rw [if_pos hfits, String.utf8Len_cons]
      omega
    · rename_i hfull
      rw [if_neg hfull]
      simp only [String.utf8Len_nil]
      omega

theorem frontBytes_ne_nil {limit : ℕ} (hlimit : 4 ≤ limit) {text : List Char} (h : text ≠ []) :
    frontBytes limit text ≠ [] := by
  obtain ⟨c, rest, rfl⟩ := List.exists_cons_of_ne_nil h
  have hc : c.utf8Size ≤ 4 := c.utf8Size_le_four
  rw [frontBytes, if_pos (hc.trans hlimit)]
  exact List.cons_ne_nil _ _

def clippedMark : String := "\n…（内容已截断）"

/-- `clip` of `bounded_subagent_event`: the text, and whether it was cut. -/
def clip (limit : ℕ) (text : String) : String × Bool :=
  if text.utf8ByteSize ≤ limit then (text, false)
  else (String.ofList (frontBytes limit text.toList) ++ clippedMark, true)

/-- `value` of `bounded_subagent_event`: a value that is too large becomes a clipped text of it. -/
def clipValue (value : Json) : Json × Bool :=
  if value.size ≤ 32 * 1024 then (value, false)
  else (.str (clip (16 * 1024) value.render).1, true)

/-- The text of a text or a notice. -/
def clipText (text : String) : String × Bool :=
  if 32 * 1024 < (Json.str text).size then ((clip (16 * 1024) text).1, true) else (text, false)

/-- `bounded_subagent_event`. -/
def boundedSubagentEvent : EventKind → Except String (EventKind × Bool)
  | .text text => .ok (.text (clipText text).1, (clipText text).2)
  | .notice text => .ok (.notice (clipText text).1, (clipText text).2)
  | .tool id name input => do
    bailIf (256 < id.utf8ByteSize) "子智能体工具标识过长"
    .ok (.tool id (clip 256 name).1 (clipValue input).1, (clip 256 name).2 || (clipValue input).2)
  | .toolResult id content isError => do
    bailIf (256 < id.utf8ByteSize) "子智能体工具标识过长"
    .ok (.toolResult id (clipValue content).1 isError, (clipValue content).2)
  | .progress phase => .ok (.progress phase, false)
  | _ => .error "不支持的子智能体过程事件"

/-- `success` of `handback_delivered`. `parse` is `serde_json::from_str`. -/
def tellsSuccess (parse : String → Option Json) (text : String) : Bool :=
  (parse text).any fun value => (value.index "success").bool? = some true

/-- `handback_delivered`. -/
def handbackDelivered (parse : String → Option Json) (content : Json) (isError : Bool) : Bool :=
  !isError && match content with
    | .str text => tellsSuccess parse text
    | .arr blocks => blocks.any fun part =>
      (part.index "type").str? = some "text" && (part.index "text").str?.any (tellsSuccess parse)
    | _ => false

/-- `confirmed_child_report`. -/
def confirmedChildReport (parse : String → Option Json) : EventKind → EventKind → Option String
  | .tool id name input, .toolResult resultId content isError =>
    if name ≠ "SubagentHandback" ∨ id ≠ resultId ∨ ¬handbackDelivered parse content isError then
      none
    else (input.index "message").str?
  | _, _ => none

/-- A row of `subagent_events`. -/
structure ChildEventRow where
  seq : ℕ
  sessionId : String
  taskId : String
  atMs : ℕ
  event : EventKind
  truncated : Bool
  deriving Inhabited

/-- A row of `subagent_history` whose source is the stream. -/
structure ChildStreamRow where
  sessionId : String
  taskId : String
  seq : ℕ
  atMs : ℕ
  event : EventKind
  deriving Inhabited

/-- A row of `subagent_native_transcripts`. -/
structure NativeTranscriptRow where
  sessionId : String
  taskId : String
  transcript : List Event × Bool

/-- The database with its tables about what child agents say. Rows of a table stand in the order
of their numbers; `lastSeq` is the counter of `subagent_events`. -/
structure Transcripts where
  store : Store
  events : List ChildEventRow := []
  lastSeq : ℕ := 0
  stream : List ChildStreamRow := []
  native : List NativeTranscriptRow := []

namespace Store

/-- The child a tool use started: of the rows that name it, the one touched last. -/
def subagentTask (s : Store) (id toolUseId : String) : Option String :=
  (((s.subagents.filter fun row => row.sessionId = id && row.task.toolUseId = some toolUseId
    ).insertionSort fun a b => b.task.updatedAt ≤ a.task.updatedAt).head?).map (·.task.id)

end Store

namespace ChildEventRow

/-- The row is of a child of a session. -/
def «of» (id taskId : String) (row : ChildEventRow) : Bool :=
  row.sessionId = id && row.taskId = taskId

end ChildEventRow

namespace Transcripts

/-- The rows of a child, oldest first. -/
def taskRows (t : Transcripts) (id taskId : String) : List ChildEventRow :=
  t.events.filter (·.of id taskId)

/-- The rows of a child's stream, oldest first. -/
def streamRows (t : Transcripts) (id taskId : String) : List ChildStreamRow :=
  t.stream.filter fun row => row.sessionId = id && row.taskId = taskId

/-- `INSERT INTO subagent_history`, behind the child's rows. -/
def insertStream (t : Transcripts) (id taskId : String) (event : EventKind) (now : ℕ) :
    Transcripts :=
  let seq := ((t.streamRows id taskId).map (·.seq)).foldr max 0 + 1
  { t with stream := t.stream ++ [{ sessionId := id, taskId, seq, atMs := now, event }] }

/-- The tool call a tool result of the stream answers. -/
def streamTool (t : Transcripts) (id taskId toolId : String) : Option EventKind :=
  ((t.streamRows id taskId).map (·.event)).findRev? fun event =>
    match event with
    | .tool called _ _ => called = toolId
    | _ => false

/-- The stream's part of `subagent_event`: the event in full, and the report that a result
confirms. -/
def recordStream (parse : String → Option Json) (t : Transcripts) (id taskId : String)
    (event : EventKind) (now : ℕ) : Transcripts :=
  let t := t.insertStream id taskId event now
  let report := match event with
    | .toolResult toolId _ _ =>
      (t.streamTool id taskId toolId).bind fun tool => confirmedChildReport parse tool event
    | _ => none
  match report with
  | some text => t.insertStream id taskId (.text text) now
  | none => t

/-- `INSERT INTO subagent_events`. -/
def insertEvent (t : Transcripts) (id taskId : String) (event : EventKind) (truncated : Bool)
    (now : ℕ) : Transcripts :=
  { t with
    events := t.events ++
      [{ seq := t.lastSeq + 1, sessionId := id, taskId, atMs := now, event, truncated }]
    lastSeq := t.lastSeq + 1 }

/-- `UPDATE subagent_events SET ... WHERE seq=?1`. -/
def updateEvent (t : Transcripts) (seq : ℕ) (event : EventKind) (truncated : Bool) (now : ℕ) :
    Transcripts :=
  { t with
    events := updateWhere (·.seq = seq) (fun row => { row with atMs := now, event, truncated })
      t.events }

/-- The row a text is joined to, with its text: the child's newest row, when it is a text. -/
def openText (t : Transcripts) (id taskId : String) : Option (ChildEventRow × String) :=
  (t.taskRows id taskId).getLast?.bind fun row => row.event.asText.map fun text => (row, text)

/-- The snapshot's part of `subagent_event`. -/
def recordSnapshot (t : Transcripts) (id taskId : String) (event : EventKind) (now : ℕ) :
    Except String Transcripts := do
  let (event, truncated) ← boundedSubagentEvent event
  match event.asText, t.openText id taskId with
  | some text, some (row, joined) =>
    let joined := if row.truncated then joined else joined ++ text
    .ok (t.updateEvent row.seq (.text (clipText joined).1)
      (truncated || (row.truncated || (clipText joined).2)) now)
  | _, _ => .ok (t.insertEvent id taskId event truncated now)

/-- `subagent_event`. -/
def subagentEvent (parse : String → Option Json) (t : Transcripts) (id toolUseId : String)
    (event : EventKind) (now : ℕ) : Except String Transcripts := do
  let taskId ← orError "子智能体输出无法关联到原生任务" (t.store.subagentTask id toolUseId)
  (t.recordStream parse id taskId event now).recordSnapshot id taskId event now

/-- The loop of `subagent_transcript`, newest row first, with the events read so far oldest first.
The flag says that something is left out. -/
def transcriptScan (s : Store) (id : String) :
    List Event → ℕ → Bool → List ChildEventRow → Except String (List Event × Bool)
  | events, _, truncated, [] => .ok (events, truncated)
  | events, bytes, truncated, row :: rows => do
    let size := row.event.bytes + 128
    if events.length = 500 ∨ 256 * 1024 < bytes + size then
      .ok (events, true)
    else
      let event ← s.presentationEvent id row.event
      transcriptScan s id
        ({ seq := row.seq, sessionId := id, atMs := row.atMs, event } :: events)
        (bytes + size) (truncated || row.truncated) rows

/-- `subagent_transcript`. -/
def subagentTranscript (t : Transcripts) (id taskId : String) :
    Except String (List Event × Bool) := do
  let _ ← t.store.session id
  match t.native.find? fun row => row.sessionId = id && row.taskId = taskId with
  | some row => .ok row.transcript
  | none => do
    bailIf (¬t.store.subagents.any fun row => row.sessionId = id && row.task.id = taskId)
      "此对话没有对应的子智能体"
    transcriptScan t.store id [] 0 false (((t.taskRows id taskId).reverse).take 501)

end Transcripts

/-- What an agent reports to be logged: an event of its own, or one of a child it started. -/
inductive Report where
  | event (e : AgentEvent)
  | child (toolUseId : String) (e : AgentEvent)

/-- A report is redacted and stored: `Action::Event` and `Action::SubagentEvent` of
`TurnState::apply`. -/
def Transcripts.record (fromValue : Json → Option AgentEvent) (parse : String → Option Json)
    (config : LaunchConfig) (id : String) (t : Transcripts) (r : Report × ℕ) :
    Except String Transcripts :=
  match r with
  | (.event e, now) => do
    let e ← config.redactEvent fromValue e
    let store ← t.store.event id e.event now
    .ok { t with store }
  | (.child toolUseId e, now) => do
    let e ← config.redactEvent fromValue e
    t.subagentEvent parse id toolUseId e.event now

end LatteWork
