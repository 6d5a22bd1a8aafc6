import LatteWork.Agents.ChildHistory
import LatteWork.Lib.Runs

/-!
# Indexing a child's transcript

Readers of a child's history index its transcript file on the way: each takes the cursor from the
database, reads a page of the file as it is then, and caches it. Nothing holds a reader up between
these, so others may go ahead of it, the agent writes on, and the server may restart.
-/

namespace LatteWork

open Fallible

/-- The database, the file, and what readers have in hand. -/
structure ChildIndexing where
  histories : ChildHistories
  file : NativeFile
  cursors : List ChildHistoryCursor := []
  pages : List ChildHistoryPage := []

inductive ChildIndexOp where
  | append (bytes : List UInt8)
  | load
  | read (cursor now : ℕ)
  | cache (page : ℕ)
  | other (id taskId : String) (page : ChildHistoryPage)
  | database (transcripts : Transcripts)
  | restart

namespace ChildIndexing

/-- An operation about the child with `taskId`. With `other` another child's page is cached, and
with `database` the other tables change. -/
def apply (svc : ChildServices) (task : ChildTask) (taskId : String) (s : ChildIndexing) :
    ChildIndexOp → Except String ChildIndexing
  | .append bytes => .ok { s with file := { s.file with content := s.file.content ++ bytes } }
  | .load => do
    let cursor ← s.histories.childHistoryCursor task.sessionId taskId
    .ok { s with cursors := s.cursors ++ [cursor] }
  | .read cursor now => do
    let cursor ← orError "" s.cursors[cursor]?
    let page ← childHistory svc task s.file cursor now
    .ok { s with pages := s.pages ++ [page] }
  | .cache page => do
    let page ← orError "" s.pages[page]?
    let histories ← s.histories.cacheChildHistory task.sessionId taskId page
    .ok { s with histories }
  | .other id other page => do
    bailIf (id = task.sessionId ∧ other = taskId) ""
    let histories ← s.histories.cacheChildHistory id other page
    .ok { s with histories }
  | .database transcripts => .ok { s with histories := { s.histories with transcripts } }
  | .restart => .ok { s with cursors := [], pages := [] }

/-- Nothing was read yet. -/
def start (transcripts : Transcripts) (file : NativeFile) : ChildIndexing :=
  { histories := { transcripts }, file }

/-- An attempted operation. A refused one changes nothing. -/
def step (svc : ChildServices) (task : ChildTask) (taskId : String) :
    ChildIndexing → ChildIndexOp → ChildIndexing :=
  Runs.attempt (apply svc task taskId)

/-- The numbers and the events that are cached, in order. -/
def cached (s : ChildIndexing) (id taskId : String) : List (ℕ × EventKind) :=
  (s.histories.sourceRows id taskId true).map fun row => (row.seq, row.event)

end ChildIndexing

end LatteWork
