import LatteWork.Agents.Messages
import LatteWork.Lib.Lines
import LatteWork.Store.ChildHistory

/-!
# The transcript file of a child agent

The agent writes one record a line to a file of its own, which only grows. It is read in pages of
whole lines from a cursor, and every record becomes the events of its blocks. A report that the
child hands back is an event of its own once a later result confirms it: until then the cursor
carries it.
-/

namespace LatteWork

open Fallible

/-- The code that reading calls: `from_slice`, `from_str` and `from_value` of `serde_json`. -/
structure ChildServices where
  parseLine : List UInt8 → Option Json
  parseText : String → Option Json
  fromValue : Json → Option AgentEvent

/-- Whose records are read, and for which session. -/
structure ChildTask where
  parent : String
  child : String
  sessionId : String
  config : LaunchConfig

/-- The transcript file. `identity` is its device and inode. -/
structure NativeFile where
  content : List UInt8
  identity : String
  deriving DecidableEq, Inhabited

/-- `ChildPageBytes`. -/
structure ChildPageBytes where
  bytes : List UInt8
  cursor : ChildHistoryCursor
  hasMore : Bool
  deriving Inhabited

def isNewline (b : UInt8) : Bool := b = 10

/-- The loop of `read_child_page_path`, over the lines that are written and the rest behind them.
The flag says that the rest was reached. -/
def readLines (bytes : List UInt8) :
    List (List UInt8) → List UInt8 → Except String (List UInt8 × Bool)
  | [], rest =>
    if 512 * 1024 ≤ bytes.length ∨ rest = [] then .ok (bytes, false)
    else do
      bailIf (maxFrame - 4096 < rest.length) "子会话单条原始记录超出安全读取范围，内容未截断"
      .ok (bytes, true)
  | line :: lines, rest =>
    if 512 * 1024 ≤ bytes.length then .ok (bytes, false)
    else do
      bailIf (maxFrame - 4096 < line.length - 1) "子会话单条原始记录超出安全读取范围，内容未截断"
      readLines (bytes ++ line) lines rest

/-- `read_child_page_path`. -/
def readChildPagePath (file : NativeFile) (cursor : ChildHistoryCursor) :
    Except String ChildPageBytes := do
  bailIf (cursor.identity ≠ "" ∧ cursor.identity ≠ file.identity) "子会话原始文件已替换，请核对记录"
  bailIf (file.content.length < cursor.offset) "子会话原始记录缩短，请核对记录"
  let text := file.content.drop cursor.offset
  let (bytes, partialTail) ← readLines [] (Lines.complete isNewline text) (Lines.tail isNewline text)
  .ok { bytes, cursor := { cursor with identity := file.identity, pendingTail := partialTail }
        hasMore := !partialTail && cursor.offset + bytes.length < file.content.length }

/-- What a block of a record says. -/
def blockEvent (type : String) (block : Json) : Option AgentEvent :=
  match type, (block.index "type").str? with
  | "assistant", some "text" => (block.index "text").str?.map fun text => { event := .text text }
  | "assistant", some "tool_use" => do
    let id ← (block.index "id").str?
    let name ← (block.index "name").str?
    pure { event := .tool id name (block.index "input") }
  | "user", some "tool_result" => (block.index "tool_use_id").str?.map fun id =>
    { event := .toolResult id (toolContent (block.index "content"))
        ((block.index "is_error").bool?.getD false) }
  | _, _ => none

/-- An event of a record, under its number. `delivered` says that the block tells success. -/
structure ChildItem where
  seq : ℕ
  event : EventKind
  delivered : Bool
  deriving Inhabited

section

variable (svc : ChildServices) (task : ChildTask)

/-- A block of a record at `base`, its place in the record beside it. -/
def blockItem (type : String) (base : ℕ) (block : Json × ℕ) : Except String (Option ChildItem) :=
  match blockEvent type block.1 with
  | none => .ok none
  | some e => do
    let e ← task.config.redactEvent svc.fromValue e
    .ok (some
      { seq := base * 4096 + block.2 * 2
        event := e.event
        delivered := handbackDelivered svc.parseText (block.1.index "content")
          ((block.1.index "is_error").bool?.getD false) })

/-- What an item adds, with the reports that are not confirmed yet: itself, and the report that it
confirms. -/
def confirm (handbacks : OrdMap String String) (item : ChildItem) :
    Except String (OrdMap String String × List (ℕ × EventKind)) :=
  match item.event with
  | .tool id name input =>
    if name = "SubagentHandback" then do
      let handbacks := match (input.index "message").str? with
        | some text => handbacks.insert id text
        | none => handbacks
      bailIf (128 < handbacks.entries.length ∨
        maxFrame < (handbacks.values.map (·.utf8ByteSize)).sum) "待确认报告超出安全范围，内容未截断"
      .ok (handbacks, [(item.seq, item.event)])
    else .ok (handbacks, [(item.seq, item.event)])
  | .toolResult id _ _ =>
    let report := if item.delivered then handbacks.find? id else none
    .ok (handbacks.erase id,
      (item.seq, item.event) :: (report.map fun text => (item.seq + 1, .text text)).toList)
  | _ => .ok (handbacks, [(item.seq, item.event)])

/-- The blocks of the record that a line holds: none when the line is of another kind. -/
def recordBlocks (base : ℕ) (line : List UInt8) : Except String (String × List (Json × ℕ)) := do
  let value ← orError "子会话原始记录格式无效，未跳过内容" (svc.parseLine line)
  match (value.index "type").str? with
  | none => .ok ("", [])
  | some type =>
    if type ∉ ["assistant", "user"] then .ok (type, [])
    else do
      bailIf ((value.index "sessionId").str? ≠ some task.parent ∨
        (value.index "agentId").str? ≠ some task.child ∨
        (value.index "isSidechain").bool? ≠ some true) "原生子会话记录不属于此任务"
      match ((value.index "message").index "content").arr? with
      | none => .ok (type, [])
      | some blocks => do
        bailIf (2048 < blocks.length ∨ 9007199254740991 / 4096 < base)
          "子会话记录标识超出范围，内容未截断"
        .ok (type, blocks.zipIdx)

/-- A block of a record. -/
def parseBlock (type : String) (base : ℕ) (handbacks : OrdMap String String) (block : Json × ℕ) :
    Except String (OrdMap String String × List (ℕ × EventKind)) := do
  match ← blockItem svc task type base block with
  | none => .ok (handbacks, [])
  | some item => confirm handbacks item

/-- A line, with the place where it starts and the reports that are not confirmed yet. -/
def parseRecord (state : ℕ × OrdMap String String) (line : List UInt8) :
    Except String ((ℕ × OrdMap String String) × List (ℕ × EventKind)) := do
  let (type, blocks) ← recordBlocks svc task state.1 line
  let (handbacks, entries) ← Transducer.run (parseBlock svc task type state.1) state.2 blocks
  .ok ((state.1 + line.length, handbacks), entries)

/-- `parse_child_history`. -/
def parseChildHistory (raw : ChildPageBytes) (now : ℕ) : Except String ChildHistoryPage := do
  let ((offset, handbacks), entries) ← Transducer.run (parseRecord svc task)
    (raw.cursor.offset, raw.cursor.handbacks) (Lines.split isNewline raw.bytes)
  .ok { events := entries.map fun (seq, event) =>
          { seq, sessionId := task.sessionId, atMs := now, event }
        cursor := { raw.cursor with offset, handbacks, hasMore := raw.hasMore }
        hasMore := raw.hasMore }

/-- `child_history`, once the file is open. -/
def childHistory (file : NativeFile) (cursor : ChildHistoryCursor) (now : ℕ) :
    Except String ChildHistoryPage := do
  let raw ← readChildPagePath file cursor
  parseChildHistory svc task raw now

end

end LatteWork
