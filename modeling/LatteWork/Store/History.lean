import LatteWork.Lib.Paging
import LatteWork.Store.Sessions
import Mathlib.Data.List.Infix

/-!
# Reading the event log

A client reads a session's log backwards from its end (`history`) and polls what is new
(`events`). Both present a row rather than copy it: a row too large to send is replaced by a
fixed notice, and image results of old rows are projected to what clients accept. Reading
backwards joins consecutive text rows into one event.
-/

namespace LatteWork

/-- `tool_content`: what an image block of a tool result is shown as, with the bytes and the
images that may still be shown after it. -/
def toolBlock (remaining images : ℕ) (block : Json) : Json × ℕ × ℕ :=
  if (block.get? "type").bind Json.str? ≠ some "image" then (block, remaining, images)
  else match block.get? "source" with
    | none => (block, remaining, images)
    | some source =>
      let mime := ((source.get? "media_type").bind Json.str?).getD ""
      let data := ((source.get? "data").bind Json.str?).getD ""
      let supported := (source.get? "type").bind Json.str? = some "base64" ∧
        mime ∈ ["image/png", "image/jpeg", "image/gif", "image/webp"] ∧ data ≠ "" ∧
        data.utf8ByteSize ≤ remaining ∧ images < 4 ∧
        data.toList.all fun c => c.isAlphanum || c = '+' || c = '/' || c = '='
      if supported then
        (.obj [("data_base64", .str data), ("mime_type", .str mime), ("type", .str "image")],
          remaining - data.utf8ByteSize, images + 1)
      else
        (.obj [("text", .str "图片未展示：格式不支持或内容超过预览上限。"), ("type", .str "text")],
          remaining, images)

def toolBlocks : ℕ → ℕ → List Json → List Json
  | _, _, [] => []
  | remaining, images, block :: rest =>
    let (shown, remaining, images) := toolBlock remaining images block
    shown :: toolBlocks remaining images rest

/-- `tool_content`. -/
def toolContent : Json → Json
  | .arr blocks => .arr (toolBlocks (384 * 1024) 0 blocks)
  | content => content

/-- `normalize_history_event`. -/
def normalizeHistoryEvent (agent : String) : EventKind → EventKind
  | .toolResult id content isError =>
    .toolResult id (if agent = "claude" then toolContent content else content) isError
  | event => event

namespace EventKind

def asText : EventKind → Option String
  | text t => some t
  | _ => none

@[simp] theorem asText_text (t : String) : (text t).asText = some t := rfl

theorem asText_eq_some {e : EventKind} {t : String} : e.asText = some t ↔ e = .text t := by
  cases e <;> simp [asText]

def isToolResult : EventKind → Bool
  | toolResult .. => true
  | _ => false

/-- Bytes of the row's `data` column. -/
def bytes (e : EventKind) : ℕ := e.toJson.size

/-- `data.contains("\"source\"")`. -/
def mentionsSource (e : EventKind) : Bool :=
  decide ("\"source\"".toList <:+: e.toJson.render.toList)

end EventKind

/-- `PRESENTATION_DATA`: a row that is too large is read as a notice. -/
def EventRow.presentationData (row : EventRow) : EventKind :=
  if 524288 < row.event.bytes then .notice "旧事件过大，已省略展示；原始记录保留。" else row.event

/-- A page of `history`. Events are oldest first; `before` is the cursor of the next page. -/
structure HistoryPage where
  events : List Event
  hasMore : Bool
  needsEarlier : Bool
  before : Option ℕ
  deriving Inhabited

/-- The variables of the loop of `history`. Lists are in reverse order of pushing, so `events` is
oldest first and `textFragments` has the rows of the oldest event, oldest first. -/
structure HistoryScan where
  events : List Event := []
  textFragments : List String := []
  bytes : ℕ := 0
  oldest : Option ℕ := none
  count : ℕ := 0
  turns : ℕ := 0
  hasMore : Bool := false
  splitText : Bool := false
  deriving Inhabited

/-- `flush_history_text`: give the oldest event its text, if it is a text. -/
def flushHistoryText : List Event → List String → List Event
  | [], _ => []
  | e :: events, fragments =>
    match e.event with
    | .text _ => { e with event := .text (String.join fragments) } :: events
    | _ => e :: events

namespace HistoryScan

/-- The row continues the text that was read last. -/
def joins (scan : HistoryScan) (event : EventKind) : Bool :=
  event.asText.isSome && scan.events.head?.any fun e => e.event.asText.isSome

/-- What a row costs. A text row costs its text, and an envelope unless it joins. -/
def cost (scan : HistoryScan) (id : String) (data event : EventKind) : ℕ :=
  match event.asText with
  | none => data.bytes + id.utf8ByteSize + 96
  | some t => t.utf8ByteSize + if scan.joins event then 0 else id.utf8ByteSize + 96

/-- The page ends before this row. -/
def stops (scan : HistoryScan) (id : String) (data event : EventKind) : Bool :=
  scan.turns = 2 || scan.count = 16384 || (!scan.joins event && scan.events.length = 128) ||
    (256 * 1024 < scan.bytes + scan.cost id data event && !scan.events.isEmpty)

/-- The row is read. -/
def take (scan : HistoryScan) (id : String) (row : EventRow) (data event : EventKind) :
    HistoryScan :=
  let joins := scan.joins event
  let fragments := if joins then scan.textFragments else []
  { scan with
    oldest := some row.seq
    turns := if event.userRequest.isSome then scan.turns + 1 else scan.turns
    textFragments := event.asText.toList ++ fragments
    events :=
      if joins then scan.events
      else { seq := row.seq, sessionId := id, atMs := row.atMs
             event := if event.asText.isSome then .text "" else event } ::
        flushHistoryText scan.events scan.textFragments
    count := scan.count + 1
    bytes := scan.bytes + scan.cost id data event }

/-- The page is over, and rows are left. -/
def stop (scan : HistoryScan) (event : EventKind) : HistoryScan :=
  { scan with hasMore := true, splitText := scan.joins event }

end HistoryScan

namespace Store

open Fallible

/-- `presentation_event`. -/
def presentationEvent (s : Store) (id : String) (data : EventKind) : Except String EventKind :=
  if data.isToolResult ∧ data.mentionsSource then do
    let session ← s.session id
    .ok (normalizeHistoryEvent session.agent data)
  else .ok data

/-- The loop of `history`, newest row first. -/
def historyScan (s : Store) (id : String) :
    HistoryScan → List EventRow → Except String HistoryScan
  | scan, [] => .ok scan
  | scan, row :: rows => do
    let data := row.presentationData
    let event ← s.presentationEvent id data
    if scan.stops id data event then
      .ok (scan.stop event)
    else
      s.historyScan id (scan.take id row data event) rows

/-- The rows of a session, oldest first. -/
def sessionLog (s : Store) (id : String) : List EventRow :=
  (s.events.filter (·.sessionId = id)).insertionSort (·.seq ≤ ·.seq)

/-- `... AND seq<?2 ORDER BY seq DESC LIMIT 16385`. -/
def historyRows (s : Store) (id : String) (before : Option ℕ) : List EventRow :=
  ((Paging.below EventRow.seq (s.sessionLog id) before).reverse).take 16385

/-- An approval of the current live turn, older than the page, that is still unresolved. -/
def pendingApproval (s : Store) (id : String) (first : ℕ) : Bool :=
  let log := s.sessionLog id
  let lastUser := ((log.filter fun u => u.event.userRequest.isSome).map (·.seq)).foldr max 0
  log.any fun a =>
    match a.event with
    | .approval requestId _ _ _ =>
      decide (a.seq < first) && decide (lastUser < a.seq) &&
        (!log.any fun e => decide (a.seq < e.seq) &&
          match e.event with
          | .state status _ => !status.active
          | _ => false) &&
        !log.any fun r => decide (a.seq < r.seq) &&
          match r.event with
          | .approvalResolved resolved _ => resolved = requestId
          | _ => false
    | _ => false

/-- `history`. -/
def history (s : Store) (id : String) (before : Option ℕ) : Except String HistoryPage := do
  let scan ← s.historyScan id {} (s.historyRows id before)
  let pending := scan.hasMore && scan.oldest.any fun first => s.pendingApproval id first
  .ok { events := flushHistoryText scan.events scan.textFragments
        hasMore := scan.hasMore
        needsEarlier := (scan.hasMore && scan.splitText) || pending
        before := if scan.hasMore then scan.oldest else none }

/-- The loop of `events`, oldest row first. The flag says that rows are left. -/
def eventsScan (s : Store) (id : String) :
    List Event → ℕ → List EventRow → Except String (List Event × Bool)
  | events, _, [] => .ok (events, false)
  | events, bytes, row :: rows => do
    let data := row.presentationData
    let size := data.bytes + id.utf8ByteSize + 96
    if events.length = 200 ∨ 1024 * 1024 < bytes + size then
      .ok (events, true)
    else
      let event ← s.presentationEvent id data
      s.eventsScan id (events ++ [{ seq := row.seq, sessionId := id, atMs := row.atMs, event }])
        (bytes + size) rows

/-- `... AND seq>?2 ORDER BY seq LIMIT 201`. -/
def eventsRows (s : Store) (id : String) (after : ℕ) : List EventRow :=
  ((s.sessionLog id).filter fun row => after < row.seq).take 201

/-- `events`. -/
def pollEvents (s : Store) (id : String) (after : ℕ) : Except String (List Event × Bool) :=
  s.eventsScan id [] 0 (s.eventsRows id after)

/-- `Request::History`. -/
def historyResponse (s : Store) (isOpen busy : Bool) (id : String) (before : Option ℕ) :
    Except String Response := do
  let session ← s.session id
  let page ← s.history id before
  .ok (.history page.events (session.projectState isOpen busy) page.hasMore page.needsEarlier
    page.before)

/-- `Request::Poll`. -/
def pollResponse (s : Store) (isOpen busy : Bool) (id : String) (after : ℕ) :
    Except String Response := do
  let session ← s.session id
  let (events, hasMore) ← s.pollEvents id after
  .ok (.events events (session.projectState isOpen busy) hasMore)

end Store

end LatteWork
