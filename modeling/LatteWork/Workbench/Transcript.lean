import LatteWork.Wire.Protocol
import Mathlib.Data.List.Sort

/-!
# The transcript

The client keeps the events of a session it loaded, page by page, and projects them to the items of
a conversation. A request is shown with what became of it, which later events tell.
-/

namespace LatteWork

/-- `appendEvents`: what is new goes in, by its number. -/
def appendEvents (existing incoming : List Event) : List Event :=
  (existing ++ incoming.filter fun e => e.seq ∉ existing.map (·.seq)).insertionSort (·.seq ≤ ·.seq)

namespace EventKind

/-- A session state in which nothing is pending any more. -/
def terminal : EventKind → Bool
  | state status _ => !status.active
  | _ => false

end EventKind

/-- `hasTurnChangeFiles`. -/
def hasTurnChangeFiles (changes : TurnChanges) : Bool := !changes.summary.entries.isEmpty

inductive ApprovalDecision where
  | allowed
  | denied
  | expired
  deriving DecidableEq, Repr, Inhabited

/-- `Item`. Of `answers` the outer `none` is `undefined` and the inner one `null`. -/
inductive Item where
  | user (key : ℕ) (text : String) (atMs : ℕ) (handoff hidden : Bool)
  | assistant (key : ℕ) (text : String)
  | event (key : ℕ) (value : EventKind) (resolved : Option Bool)
      (answers : Option (Option (List QuestionAnswer))) (decision : Option ApprovalDecision)
  deriving Inhabited

namespace Item

def key : Item → ℕ
  | user key .. => key
  | assistant key _ => key
  | event key .. => key

def plain (key : ℕ) (value : EventKind) : Item := event key value none none none

end Item

/-- `queuedInputReceipts`, looked up from the front: a request's first receipt counts. -/
def queuedInputReceipts (events : List Event) : List ((String × String) × String × ℕ) :=
  events.filterMap fun e =>
    match e.event with
    | .queuedMessageSent text requestId => some ((e.sessionId, requestId), text, e.seq)
    | _ => none

/-- The maps `transcript` makes of all events before it goes through them. Where a map's later entry
replaces an earlier one, the later one stands first. -/
structure TranscriptMaps where
  receipts : List ((String × String) × String × ℕ)
  resolved : List (String × Bool)
  answered : List (String × Option (List QuestionAnswer))
  terminal : List ℕ
  turnChanges : List (String × EventKind)

namespace TranscriptMaps

def ofEvents (receipts : List ((String × String) × String × ℕ)) (events : List Event) :
    TranscriptMaps where
  receipts := receipts
  resolved := (events.filterMap fun e =>
    match e.event with
    | .approvalResolved requestId allow => some (requestId, allow)
    | _ => none).reverse
  answered := (events.filterMap fun e =>
    match e.event with
    | .questionResolved requestId answers => some (requestId, answers)
    | _ => none).reverse
  terminal := events.filterMap fun e => if e.event.terminal then some e.seq else none
  turnChanges := (events.filterMap fun e =>
    match e.event with
    | .turnChanges changes => some (changes.requestId, e.event)
    | _ => none).reverse

/-- A state after a row ends what is pending there. -/
def ended (m : TranscriptMaps) (seq : ℕ) : Bool := m.terminal.any fun stop => seq < stop

end TranscriptMaps

/-- The variables of the loop of `transcript`. The newest item is first. -/
structure TranscriptScan where
  items : List Item := []
  renderedChanges : List String := []
  deriving Inhabited

namespace TranscriptScan

def push (scan : TranscriptScan) (item : Item) : TranscriptScan :=
  { scan with items := item :: scan.items }

/-- A text goes on the last item, if that is the assistant's. -/
def say (scan : TranscriptScan) (seq : ℕ) (text : String) : TranscriptScan :=
  match scan.items with
  | .assistant key said :: rest => { scan with items := .assistant key (said ++ text) :: rest }
  | _ => scan.push (.assistant seq text)

/-- The body of the loop of `transcript`. -/
def step (m : TranscriptMaps) (scan : TranscriptScan) (e : Event) : TranscriptScan :=
  match e.event with
  | .turnChanges changes =>
    if changes.requestId ∈ scan.renderedChanges then scan
    else
      let value := (m.turnChanges.lookup changes.requestId).getD e.event
      { scan.push (.plain e.seq value) with
        renderedChanges := changes.requestId :: scan.renderedChanges }
  | .usage .. | .progress _ | .subagent _ => scan
  | .queuedMessageSent text requestId =>
    if (m.receipts.lookup (e.sessionId, requestId)).any fun r => r.2 = e.seq then
      scan.push (.user e.seq text e.atMs true false)
    else scan
  | .user text requestId =>
    let hidden := (m.receipts.lookup (e.sessionId, requestId)).any fun r =>
      r.1 = text && decide (r.2 < e.seq)
    scan.push (.user e.seq text e.atMs false hidden)
  | .text text => scan.say e.seq text
  | .question requestId .. =>
    let answers := m.answered.lookup requestId
    scan.push (.event e.seq e.event (some (answers.isSome || m.ended e.seq)) answers none)
  | .approval requestId .. =>
    let inactive := m.ended e.seq
    let decision : Option ApprovalDecision :=
      match m.resolved.lookup requestId with
      | some true => some .allowed
      | some false => some .denied
      | none => if inactive then some .expired else none
    scan.push (.event e.seq e.event (some (inactive || (m.resolved.lookup requestId).isSome)) none
      decision)
  | .state _ message =>
    if message.any (· ≠ "") then scan.push (.plain e.seq e.event) else scan
  | .approvalResolved .. | .questionResolved .. => scan
  | .tool .. | .toolResult .. | .notice _ => scan.push (.plain e.seq e.event)

end TranscriptScan

/-- What the end of `transcript` keeps: no changes of a turn that changed nothing. -/
def Item.visible : Item → Bool
  | .event _ (.turnChanges changes) .. => hasTurnChangeFiles changes
  | _ => true

/-- `transcript`. -/
def transcript (events : List Event) (receipts : List ((String × String) × String × ℕ)) :
    List Item :=
  ((events.foldl (TranscriptScan.step (.ofEvents receipts events)) {}).items.reverse).filter
    Item.visible

end LatteWork
