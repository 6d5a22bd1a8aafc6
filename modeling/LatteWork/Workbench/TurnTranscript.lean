import LatteWork.Workbench.Activity
import LatteWork.Workbench.References
import Mathlib.Data.List.SplitBy

/-!
# The turns of a conversation

The view cuts the log at the user's messages and shows each piece as a turn: its message, and the
rows behind it in segments that are folded away or left open. What handed-off messages became is known
from the whole log.
-/

namespace LatteWork

namespace EventKind

/-- `event.kind === "user"`. -/
def isUser : EventKind → Bool
  | user .. => true
  | _ => false

def status? : EventKind → Option Status
  | state status _ => some status
  | _ => none

end EventKind

namespace ActivityItem

/-- `item.type === "user" && !item.handoff`. -/
def isUser : ActivityItem → Bool
  | item (.user _ _ _ false _) _ => true
  | _ => false

def isTool : ActivityItem → Bool
  | tool _ | tools .. => true
  | _ => false

/-- The key and the text of an assistant's row. -/
def reply? : ActivityItem → Option (ℕ × String)
  | item (.assistant key text) _ => some (key, text)
  | _ => none

/-- `isProcessActivity`. -/
def isProcess : ActivityItem → Bool
  | item (.assistant ..) _ | tool _ | tools .. => true
  | item (.event _ value ..) _ =>
    match value with
    | .progress _ | .usage .. => true
    | .notice text =>
      let loaded := "已加载 Skill：".toList
      let skill := text.toList.drop loaded.length
      !(loaded.isPrefixOf text.toList && !skill.isEmpty && skill.all (!jsSpace ·))
    | _ => false
  | item (.user ..) _ | toolImages .. => false

/-- A row behind which the final reply begins. -/
def isBarrier : ActivityItem → Bool
  | item (.user ..) _ | tool _ | tools .. => true
  | item (.event ..) approvalTool => approvalTool.isSome
  | item (.assistant ..) _ | toolImages .. => false

/-- A request without an answer. -/
def isOpenRequest : ActivityItem → Bool
  | item (.event _ (.approval ..) resolved _ _) _ | item (.event _ (.question ..) resolved _ _) _ =>
    resolved ≠ some true
  | _ => false

/-- A state of a stopped turn. -/
def isStopped : ActivityItem → Bool
  | item (.event _ (.state status _) ..) _ => status = .stopped
  | _ => false

end ActivityItem

/-- A line ends here, for a regular expression's dot. -/
def isLineEnd (c : Char) : Bool :=
  c = '\n' || c = '\r' || c = Char.ofNat 0x2028 || c = Char.ofNat 0x2029

/-- `/^模型：/` or `/^Provider：.* · 模型：/`. -/
def isModelNotice (text : String) : Bool :=
  let provider := "Provider：".toList
  "模型：".toList.isPrefixOf text.toList ||
    provider.isPrefixOf text.toList &&
      ((text.toList.drop provider.length).takeWhile (!isLineEnd ·)).tails.any
        (" · 模型：".toList.isPrefixOf ·)

/-- A notice that names the model or the Provider. -/
def ActivityItem.isModel : ActivityItem → Bool
  | item (.event _ (.notice text) ..) _ => isModelNotice text
  | _ => false

/-- `finalReplyItems`, with where the first of them is. -/
def finalReply (items : List ActivityItem) : List (ℕ × String) × Option ℕ :=
  let behind := (items.reverse.takeWhile (!ActivityItem.isBarrier ·)).reverse
  (behind.filterMap ActivityItem.reply?,
    (behind.findIdx? fun item => item.reply?.isSome).map (items.length - behind.length + ·))

structure Segment where
  process : Bool
  items : List ActivityItem

/-- `activitySegments`, the index of the next item given. -/
def activitySegments (fold : ActivityItem → ℕ → Bool) : ℕ → List ActivityItem → List Segment
  | _, [] => []
  | index, item :: rest =>
    match activitySegments fold (index + 1) rest with
    | [] => [⟨fold item index, [item]⟩]
    | ⟨process, items⟩ :: more =>
      if process = fold item index then ⟨process, item :: items⟩ :: more
      else ⟨fold item index, [item]⟩ :: ⟨process, items⟩ :: more

/-- `formatElapsed`. -/
def formatElapsed (milliseconds : ℤ) : String :=
  if milliseconds < 0 then "执行过程"
  else
    let seconds := milliseconds.toNat / 1000
    let hours := seconds / 3600
    let minutes := seconds % 3600 / 60
    "用时 " ++ (if hours = 0 then "" else toString hours ++ "小时 ") ++
      (if minutes = 0 then "" else toString minutes ++ "分 ") ++ toString (seconds % 60) ++ "秒"

/-- What `turnTranscript` returns of a turn. -/
structure TranscriptTurn where
  key : String
  user : Option ActivityItem
  status : Option Status
  finalKey : Option ℕ
  finalText : Option String
  finalAt : Option ℕ
  stopped : Bool
  elapsed : String
  segments : List Segment

namespace TranscriptTurn

variable (turn : TranscriptTurn)

def processCount : ℕ := (turn.segments.filter (·.process)).length

def process : List ActivityItem := (turn.segments.filter (·.process)).flatMap (·.items)

def visible : List ActivityItem := (turn.segments.filter (!·.process)).flatMap (·.items)

end TranscriptTurn

/-- The groups of `turnTranscript`: a user's message begins one. -/
def turnGroups (events : List Event) : List (List Event) := events.splitBy fun _ e => !e.event.isUser

/-- `activityTranscript` of a part of the log, with the receipts of all of it. -/
def activityOf (receipts : List ((String × String) × String × ℕ)) (events : List Event) :
    List ActivityItem :=
  let scan := activityScan events receipts
  (scan.rows.reverse.foldl (groupRow scan.tools scan.attached) []).reverse

/-- What `turnTranscript` makes of a group. -/
def transcriptTurn (receipts : List ((String × String) × String × ℕ)) (events : List Event) :
    TranscriptTurn :=
  let items := (activityOf receipts events).filter (!ActivityItem.isModel ·)
  let user := items.head?.filter ActivityItem.isUser
  let items := if user.isSome then items.tail else items
  let ending := events.reverse.find? fun e => e.event.status?.isSome
  let status := ending.bind (·.event.status?)
  let stopped : Bool := status = some .stopped
  let items := if stopped then items.filter (!ActivityItem.isStopped ·) else items
  let duration : Option ℤ :=
    match ending, events.head? with
    | some ending, some first => if user.isSome then some ((ending.atMs : ℤ) - first.atMs) else none
    | _, _ => none
  let elapsed :=
    if stopped then
      "已停止" ++ match duration with
        | some duration => if 1000 ≤ duration then " · " ++ formatElapsed duration else ""
        | none => ""
    else
      match duration with
      | some duration => formatElapsed duration
      | none => "执行过程"
  let (reply, finalIndex) := finalReply items
  let hasFinal := user.isSome && status = some .completed && finalIndex.isSome &&
    !items.any ActivityItem.isOpenRequest
  { key := (match events.head? with | some e => e.sessionId ++ ":" ++ toString e.seq | none => "")
    user
    status
    finalKey := if hasFinal then reply.getLast?.map (·.1) else none
    finalText := if hasFinal then some ("\n\n".intercalate (reply.map (·.2))) else none
    finalAt := if hasFinal then ending.map (·.atMs) else none
    stopped
    elapsed
    segments := activitySegments (fun item index =>
      if stopped then item.isTool
      else hasFinal && finalIndex.any (index < ·) && item.isProcess) 0 items }

/-- `turnTranscript`. -/
def turnTranscript (events : List Event) : List TranscriptTurn :=
  (turnGroups events).map (transcriptTurn (queuedInputReceipts events))

end LatteWork
