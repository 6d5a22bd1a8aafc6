import LatteWork.Store.Transcripts
import LatteWork.Lib.Assoc
import LatteWork.Wire.F64

/-!
# The snapshot of a child agent

A snapshot of what a child did may hold a report that the child handed back only as the input of a
tool. When the result of the tool confirms the delivery, the text of the report is put behind it, in
pieces, and the oldest events are dropped to stay within the bounds of a snapshot.
-/

namespace LatteWork

open Assoc

/-- `Event`, in a snapshot of a child: the number of a piece is between those of two blocks. -/
structure SnapshotEvent where
  seq : ℚ
  sessionId : String
  atMs : ℕ
  event : EventKind
  deriving Inhabited

/-- `ChildTranscript`. The flag says that something is left out. -/
structure ChildTranscript where
  events : List SnapshotEvent
  truncated : Bool
  deriving Inhabited

/-! ## The pieces of a report -/

def reportCutMark : String := "\n…（报告已截断）"

/-- The text of a report that is shown, and whether it is cut. -/
def clipReport (text : String) : String × Bool :=
  if 128 * 1024 < text.utf8ByteSize then
    (String.ofList (frontBytes (128 * 1024) text.toList) ++ reportCutMark, true)
  else (text, false)

/-- The loop of `report_events`. A piece has at least one character: as many rounds as there are
characters are enough. -/
def reportPieces : ℕ → List Char → List (List Char)
  | 0, _ => []
  | _ + 1, [] => []
  | rounds + 1, rest =>
    frontBytes (4 * 1024) rest ::
      reportPieces rounds (rest.drop (frontBytes (4 * 1024) rest).length)

/-- `report_events`. -/
def reportEvents (text : String) (seq : ℚ) (sessionId : String) (atMs : ℕ) :
    List SnapshotEvent × Bool :=
  let (text, truncated) := clipReport text
  ((reportPieces text.length text.toList).zipIdx.map fun (piece, n) =>
    { seq := F64.add seq (((n + 1 : ℕ) : ℚ) / (64 : ℕ)), sessionId, atMs
      event := .text (String.ofList piece) }, truncated)

/-! ## Normalization -/

/-- What an event does to the handbacks that wait for a result, with the report it confirms. `parse` is
`serde_json::from_str`. -/
def confirms (parse : String → Option Json) (pending : List (String × String)) :
    EventKind → Option String × List (String × String)
  | .tool id name input =>
    if name = "SubagentHandback" then
      match (input.index "message").str? with
      | some text => (none, put id text pending)
      | none => (none, pending)
    else (none, pending)
  | .toolResult id content isError =>
    (if handbackDelivered parse content isError then pending.lookup id else none, drop id pending)
  | _ => (none, pending)

def sameText : EventKind → EventKind → Bool
  | .text a, .text b => a = b
  | _, _ => false

/-- The events that follow begin with these very texts. -/
def alreadyPresent (following reports : List SnapshotEvent) : Bool :=
  reports.length ≤ following.length &&
    (following.zip reports).all fun p => sameText p.1.event p.2.event

/-- An event with the report that it confirms, and whether the report is cut. -/
def additions (event : SnapshotEvent) (following : List SnapshotEvent) :
    Option String → List SnapshotEvent × Bool
  | none => ([event], false)
  | some text =>
    let (reports, cut) := reportEvents text event.seq event.sessionId event.atMs
    (if alreadyPresent following reports then [event] else event :: reports, cut)

/-- The loop that drops the oldest events, each with its size. The bytes are those of the events: none
are left when no event is. -/
def trimFront : List (SnapshotEvent × ℕ) → ℕ → Bool → List (SnapshotEvent × ℕ) × ℕ × Bool
  | [], bytes, truncated => ([], bytes, truncated)
  | e :: rest, bytes, truncated =>
    if 500 < (e :: rest).length ∨ 256 * 1024 < bytes then trimFront rest (bytes - e.2) true
    else (e :: rest, bytes, truncated)

structure Normalizing where
  pending : List (String × String) := []
  events : List (SnapshotEvent × ℕ) := []
  bytes : ℕ := 0
  truncated : Bool
  deriving Inhabited

section

variable (parse : String → Option Json) (size : SnapshotEvent → ℕ)

/-- One round of the loop. `size` is the length of what `to_vec` makes of an event. -/
def Normalizing.add (s : Normalizing) (event : SnapshotEvent) (following : List SnapshotEvent) :
    Normalizing :=
  let (report, pending) := confirms parse s.pending event.event
  let (more, cut) := additions event following report
  let (events, bytes, truncated) := trimFront (s.events ++ more.map fun e => (e, size e))
    (s.bytes + (more.map size).sum) (s.truncated || cut)
  { pending, events, bytes, truncated }

def Normalizing.addAll (s : Normalizing) : List SnapshotEvent → Normalizing
  | [] => s
  | event :: following => Normalizing.addAll (s.add parse size event following) following

/-- `normalize_child_transcript`. -/
def normalizeChildTranscript (snapshot : ChildTranscript) : ChildTranscript :=
  let s := ({ truncated := snapshot.truncated } : Normalizing).addAll parse size snapshot.events
  { events := s.events.map (·.1), truncated := s.truncated }

end

end LatteWork
