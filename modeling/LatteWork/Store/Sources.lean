import LatteWork.Agents.Messages
import LatteWork.Snapshot.Disk
import LatteWork.Store.Operations

/-!
# Task sources

The files, tools and connectors a session used. Its sources are indexed when an event is logged or a
tool is observed, and again when they are listed, for histories older than the index. A side table
has the tool uses that were counted.
-/

namespace LatteWork

open Fallible Table

inductive SourceKind where
  | file | directory | tool | connector
  deriving DecidableEq, Repr, Inhabited

/-- The kinds of the sources that a message refers to. -/
def SourceKind.ofReference : SourceKind → Bool
  | .file | .directory => true
  | .tool | .connector => false

structure TaskSource where
  id : String
  name : String
  kind : SourceKind
  path : Option String
  mimeType : Option String
  tools : List String
  uses : ℕ
  deriving DecidableEq, Repr, Inhabited

def TaskSource.marker : String :=
  "\n文件引用（相对路径基于当前项目根目录；绝对路径位于当前执行主机。仅引用路径，按当前权限读取）：\n"

def TaskSource.compactMarker : String := "\n引用（相对项目；绝对路径在当前主机，按现有权限读取）：\n"

/-- `rfind`: where the last occurrence of a text begins, and what follows it. -/
def rfind (pattern : List Char) : ℕ → List Char → Option (ℕ × List Char)
  | _, [] => none
  | index, c :: rest =>
    match rfind pattern (index + 1) rest with
    | some found => some found
    | none =>
      if pattern.isPrefixOf (c :: rest) then some (index, (c :: rest).drop pattern.length) else none

example : rfind "ab".toList 0 "abxab!".toList = some (3, "!".toList) := by decide

/-- What `references` makes of one entry of a manifest. -/
def reference (r : Json) : Option TaskSource := do
  let text (key : String) : Option String := (r.get? key).bind Json.str?
  let path ← (text "path").filter fun p =>
    p ≠ "" ∧ p.utf8ByteSize ≤ 4096 ∧ Char.ofNat 0 ∉ p.toList
  let kind ← (text "type").bind fun t =>
    if t = "file" then some SourceKind.file
    else if t = "directory" then some .directory
    else none
  some {
    id := "file:" ++ path
    name := ((text "name").filter fun s => s ≠ "" ∧ s.utf8ByteSize ≤ 256).getD
      ((pathParts path).getLast?.getD path)
    kind
    path := some path
    mimeType := (text "mime_type").filter fun s => s.utf8ByteSize ≤ 128
    tools := []
    uses := 0 }

/-- `references`. `parse` is the JSON parser. -/
def references (parse : String → Option Json) (text : String) : List TaskSource :=
  let long := rfind TaskSource.marker.toList 0 text.toList
  let compact := rfind TaskSource.compactMarker.toList 0 text.toList
  let found := match long, compact with
    | some a, some b => some (if a.1 ≤ b.1 then b else a)
    | found, none => found
    | none, found => found
  match found.bind fun p => parse (String.ofList p.2) with
  | some (.arr refs) => (refs.take 20).filterMap reference
  | _ => []

/-- The server in the name of a connector's tool. -/
def connectorOf (name : String) : Option String :=
  if "mcp__".toList.isPrefixOf name.toList then
    (splitOnce "__".toList (name.toList.drop 5)).map fun p => String.ofList p.1
  else none

/-- `tool_source`. -/
def toolSource (name : String) : Option TaskSource :=
  if name = "" ∨ 256 < name.utf8ByteSize then none
  else
    let connector := connectorOf name
    some {
      id := (if connector.isSome then "connector" else "tool") ++ ":" ++ connector.getD name
      name := String.ofList ((connector.getD name).toList.map fun c => if c = '_' then ' ' else c)
      kind := if connector.isSome then .connector else .tool
      path := none
      mimeType := none
      tools := [name]
      uses := 1 }

example : (toolSource "mcp__lark_docs__read").map (·.id) = some "connector:lark_docs" := by decide

/-- `event_sources`. -/
def eventSources (parse : String → Option Json) : EventKind → List TaskSource
  | .user text _ | .queuedMessageSent text _ => references parse text
  | .tool _ name _ => (toolSource name).toList
  | _ => []

/-- A row of `task_sources`. -/
structure SourceRow where
  sessionId : String
  source : TaskSource
  atMs : ℕ
  deriving DecidableEq, Repr, Inhabited

def SourceRow.names (session id : String) (row : SourceRow) : Bool :=
  row.sessionId = session && row.source.id = id

/-- The tables `task_sources` and `observed_tools`. -/
structure SourceTables where
  taskSources : List SourceRow := []
  observedTools : List (String × String) := []
  deriving DecidableEq, Repr, Inhabited

/-- One more name in a list of tools. -/
def addTool (tools : List String) (tool : String) : List String :=
  if tool ∉ tools ∧ tools.length < 64 then tools ++ [tool] else tools

/-- What `index_source` keeps of the source that was there. -/
def TaskSource.merge (previous source : TaskSource) : TaskSource :=
  { source with
    uses := min (previous.uses + source.uses) (2 ^ 32 - 1)
    tools := previous.tools.foldl addTool source.tools }

namespace SourceTables

/-- The sources of a session. -/
def rows (t : SourceTables) (session : String) : List SourceRow :=
  t.taskSources.filter (·.sessionId = session)

/-- `index_source`. -/
def indexSource (t : SourceTables) (session : String) (source : TaskSource) (now : ℕ) :
    SourceTables :=
  match t.taskSources.find? (SourceRow.names session source.id) with
  | some row =>
    let merged := row.source.merge source
    { t with
      taskSources := updateWhere (SourceRow.names session source.id)
        (fun r => { r with source := merged, atMs := now }) t.taskSources }
  | none =>
    if 512 ≤ (t.rows session).length then t
    else { t with taskSources := t.taskSources ++ [{ sessionId := session, source, atMs := now }] }

/-- `index_tool`. -/
def indexTool (t : SourceTables) (session id name : String) (now : ℕ) : SourceTables :=
  if id = "" ∨ 512 < id.utf8ByteSize then t
  else if (session, id) ∈ t.observedTools then t
  else
    let t := { t with observedTools := t.observedTools ++ [(session, id)] }
    match toolSource name with
    | some source => t.indexSource session source now
    | none => t

/-- `index_event`. -/
def indexEvent (parse : String → Option Json) (t : SourceTables) (session : String)
    (event : EventKind) (now : ℕ) : SourceTables :=
  match event with
  | .tool id name _ => t.indexTool session id name now
  | event => (eventSources parse event).foldl (fun t source => t.indexSource session source now) t

end SourceTables

/-- The order in which sources are listed: `ORDER BY at DESC, id`. -/
def SourceRow.before (a b : SourceRow) : Bool :=
  b.atMs < a.atMs || (a.atMs = b.atMs && a.source.id ≤ b.source.id)

/-- The operations that log an event through `event`, or log and index one as it does. The event of
a message that was forwarded is logged without being indexed. -/
def StoreOp.indexes : StoreOp → Bool
  | .event .. | .begin .. | .endSubagents .. | .uncertainForwarded .. => true
  | _ => false

/-- An operation on the database, or one on its sources. -/
inductive SourceOp where
  | store (op : StoreOp)
  | observeTool (session id name : String)
  | sources (session : String)

/-- The database with its source index. -/
structure IndexedStore where
  store : Store
  tables : SourceTables := {}
  deriving Inhabited

namespace IndexedStore

variable (parse : String → Option Json)

/-- The rows of the lazy index: the last 257 events that may have sources, oldest first. -/
def history (s : IndexedStore) (session : String) : List EventRow :=
  ((((s.store.events.filter (·.sessionId = session)).insertionSort (·.seq ≤ ·.seq)).filter
    fun row => row.event.kind ∈ ["user", "queued_message_sent", "tool"]).reverse.take 257).reverse

/-- The rows that `sources` indexes. -/
def window (s : IndexedStore) (session : String) : List EventRow :=
  (s.history session).drop ((s.history session).length - 256)

/-- `sources`: index the last 256 of these events, and list 128 sources. -/
def sources (s : IndexedStore) (session : String) (now : ℕ) :
    Except String ((List TaskSource × Bool) × IndexedStore) := do
  let _ ← s.store.session session
  let tables := (s.window session).foldl
    (fun t row => t.indexEvent parse session row.event now) s.tables
  let rows := ((tables.rows session).insertionSort (SourceRow.before · ·)).take 129
  .ok (((rows.take 128).map (·.source), 256 < (s.history session).length || 128 < rows.length),
    { s with tables })

/-- `observe_tool`. -/
def observeTool (s : IndexedStore) (session id name : String) (now : ℕ) :
    Except String IndexedStore :=
  if id = "" ∨ 512 < id.utf8ByteSize then .ok s
  else do
    s.store.referenceSession session
    .ok { s with tables := s.tables.indexTool session id name now }

/-- An operation at a time. One that logs events indexes the rows it adds. -/
def apply (s : IndexedStore) (o : SourceOp × ℕ) : Except String IndexedStore :=
  match o with
  | (.store op, now) => do
    let store ← s.store.apply (op, now)
    let added := store.events.drop s.store.events.length
    .ok { store
          tables := if op.indexes then
              added.foldl (fun t row => t.indexEvent parse row.sessionId row.event now) s.tables
            else s.tables }
  | (.observeTool session id name, now) => s.observeTool session id name now
  | (.sources session, now) => (s.sources parse session now).map (·.2)

/-- An attempted operation. A refused one changes nothing. -/
def step (s : IndexedStore) (o : SourceOp × ℕ) : IndexedStore := Runs.attempt (apply parse) s o

/-- The database after the operations, in order. -/
def after (s : IndexedStore) (ops : List (SourceOp × ℕ)) : IndexedStore :=
  Runs.run (step parse) s ops

end IndexedStore

end LatteWork
