import LatteWork.Lib.Assoc
import LatteWork.Workbench.Transcript

/-!
# The activity of a turn

The transcript's tool calls are paired with their results and with the requests about them, and
calls in a row become one group. A call may change after it was shown, so the rows refer to the
calls by number until the end.
-/

namespace LatteWork

/-- The length of a JavaScript string: a character beyond the basic plane counts twice. -/
def utf16Length (s : String) : ℕ := (s.toList.map fun c => if 0x10000 ≤ c.toNat then 2 else 1).sum

/-- One block of `toolOutput`, with the images so far. -/
def toolOutputBlock (images : List Json) (block : Json) : Json × List Json :=
  if (block.get? "type").bind Json.str? = some "image" ∧ (block.get? "data_base64").isSome then
    let supported := ((block.get? "mime_type").bind Json.str?).isSome && decide (images.length < 4) &&
      ((block.get? "data_base64").bind Json.str?).any fun data =>
        decide (utf16Length data ≤ 384 * 1024)
    (.obj [("type", .str "text"), ("text", .str "[图片]")],
      if supported then images ++ [block] else images)
  else (block, images)

/-- `toolOutput`. -/
def toolOutput : Json → Json × List Json
  | .arr blocks =>
    let (content, images) := blocks.foldl (fun acc block =>
      let (shown, images) := toolOutputBlock acc.2 block
      (acc.1 ++ [shown], images)) (([] : List Json), ([] : List Json))
    (.arr content, images)
  | value => (value, [])

inductive ToolStatus where
  | pending
  | waiting
  | denied
  | expired
  | completed
  | failed
  | unconfirmed
  deriving DecidableEq, Repr, Inhabited

/-- Calls with such a status are grouped. -/
def ToolStatus.grouped : ToolStatus → Bool
  | pending | completed | unconfirmed => true
  | _ => false

/-- `ToolActivity`. -/
structure ToolActivity where
  key : ℕ
  name : String
  input : Option Json := none
  output : Option Json := none
  status : ToolStatus
  deriving Inhabited

/-- A row before the grouping. The key of `toolImages` is half a step behind its result's. -/
inductive ActivityRow where
  | item (item : Item) (approvalTool : Option ℕ)
  | tool (index : ℕ)
  | toolImages (key : ℕ) (images : List Json)
  deriving Inhabited

/-- `ActivityItem`. -/
inductive ActivityItem where
  | item (item : Item) (approvalTool : Option ToolActivity)
  | tool (tool : ToolActivity)
  | tools (key : ℕ) (tools : List ToolActivity)
  | toolImages (key : ℕ) (images : List Json)
  deriving Inhabited

/-- The variables of `activityTranscript`. The newest row is first; `tools` has every call made, the
oldest first; `terminal` has the states not yet passed. -/
structure ActivityScan where
  rows : List ActivityRow := []
  tools : List ToolActivity := []
  attached : List ℕ := []
  pending : List (String × ℕ) := []
  unfinished : List ℕ := []
  terminal : List ℕ := []
  deriving Inhabited

namespace ActivityScan

def setTool (scan : ActivityScan) (index : ℕ) (f : ToolActivity → ToolActivity) : ActivityScan :=
  { scan with tools := scan.tools.modify index f }

def push (scan : ActivityScan) (row : ActivityRow) : ActivityScan :=
  { scan with rows := row :: scan.rows }

/-- A new call, with a row of its own. -/
def pushTool (scan : ActivityScan) (tool : ToolActivity) : ActivityScan :=
  { scan.push (.tool scan.tools.length) with tools := scan.tools ++ [tool] }

/-- `finish`. -/
def finish (scan : ActivityScan) : ActivityScan :=
  { scan.unfinished.foldl (fun scan index => scan.setTool index fun tool =>
      if tool.status = .pending then { tool with status := .unconfirmed } else tool) scan with
    unfinished := []
    pending := [] }

/-- The states up to an item end what is unfinished. -/
def pass (scan : ActivityScan) (key : ℕ) : ActivityScan :=
  if scan.terminal.head?.any (· ≤ key) then
    { scan.finish with terminal := scan.terminal.dropWhile (· ≤ key) }
  else scan

def start (scan : ActivityScan) (key : ℕ) (id name : String) (input : Json) : ActivityScan :=
  let index := scan.tools.length
  let scan := scan.pushTool { key, name, input := some input, status := .pending }
  { scan with
    unfinished := scan.unfinished ++ [index]
    pending := if id = "" then scan.pending else Assoc.put id index scan.pending }

def result (scan : ActivityScan) (key : ℕ) (id : String) (content : Json) (isError : Bool) :
    ActivityScan :=
  let (output, images) := toolOutput content
  let status : ToolStatus := if isError then .failed else .completed
  let scan :=
    match if id = "" then none else scan.pending.lookup id with
    | some index =>
      { scan.setTool index fun tool =>
          { tool with
            output := some output
            status := if tool.status ≠ .denied then status else tool.status } with
        pending := Assoc.drop id scan.pending
        unfinished := scan.unfinished.filter (· ≠ index) }
    | none => scan.pushTool { key, name := "工具输出", output := some output, status }
  if images.isEmpty then scan else scan.push (.toolImages key images)

/-- The call a request is about. -/
def asked (scan : ActivityScan) : EventKind → Option ℕ
  | .approval _ (some id) .. | .question _ (some id) _ =>
    if id = "" then none else scan.pending.lookup id
  | _ => none

/-- What a request makes of its call. -/
def askedStatus (value : EventKind) (resolved : Option Bool)
    (answers : Option (Option (List QuestionAnswer))) (decision : Option ApprovalDecision) : ToolStatus :=
  match value with
  | .question .. =>
    if resolved = some true then
      match answers with
      | some none => .denied
      | none => .expired
      | some (some _) => .pending
    else .waiting
  | _ =>
    match decision with
    | some .denied => .denied
    | some .expired => .expired
    | some .allowed => .pending
    | none => .waiting

/-- The body of the loop of `activityTranscript`, behind the states. -/
def take (scan : ActivityScan) (item : Item) : ActivityScan :=
  match item with
  | .user _ _ _ handoff _ =>
    let scan := if handoff then scan else scan.finish
    scan.push (.item item none)
  | .assistant .. => scan.push (.item item none)
  | .event key value resolved answers decision =>
    match value with
    | .tool id name input => scan.start key id name input
    | .toolResult id content isError => scan.result key id content isError
    | _ =>
      match scan.asked value with
      | some index =>
        { scan.push (.item item (some index)) with
          attached := index :: scan.attached }.setTool index fun tool =>
            { tool with status := askedStatus value resolved answers decision }
      | none => scan.push (.item item none)

def step (scan : ActivityScan) (item : Item) : ActivityScan := (scan.pass item.key).take item

end ActivityScan

/-- The last rows are groups first: the body of the loop that groups. -/
def groupRow (tools : List ToolActivity) (attached : List ℕ) (grouped : List ActivityItem) :
    ActivityRow → List ActivityItem
  | .item item approvalTool => .item item (approvalTool.bind fun index => tools[index]?) :: grouped
  | .toolImages key images => .toolImages key images :: grouped
  | .tool index =>
    if index ∈ attached then grouped
    else
      match tools[index]? with
      | none => grouped
      | some row =>
        if row.status.grouped then
          match grouped with
          | .tools key group :: rest => .tools key (group ++ [row]) :: rest
          | .tool last :: rest =>
            if last.status.grouped then .tools last.key [last, row] :: rest
            else .tool row :: .tool last :: rest
          | _ => .tool row :: grouped
        else .tool row :: grouped

/-- The loop of `activityTranscript`, and what ends it. -/
def activityScan (events : List Event) (receipts : List ((String × String) × String × ℕ)) :
    ActivityScan :=
  let terminal := events.filterMap fun e => if e.event.terminal then some e.seq else none
  let scan := (transcript events receipts).foldl ActivityScan.step { terminal }
  if scan.terminal ≠ [] then scan.finish else scan

/-- `activityTranscript`. -/
def activityTranscript (events : List Event) : List ActivityItem :=
  let scan := activityScan events (queuedInputReceipts events)
  (scan.rows.reverse.foldl (groupRow scan.tools scan.attached) []).reverse

end LatteWork
