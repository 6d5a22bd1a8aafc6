import LatteWork.Lib.UnifiedDiff

/-!
# The diff of a file as it is shown

A diff is taken apart line by line, with the two line numbers that the last hunk header gave. For the
two columns the removed and added lines of one change stand beside each other.
-/

namespace LatteWork

namespace GitDiff

inductive DiffKind where
  | context | added | removed | hunk | metadata
  deriving DecidableEq, Repr, Inhabited

structure DiffLine where
  kind : DiffKind
  text : List Char
  old : Option ℕ
  next : Option ℕ
  deriving DecidableEq, Repr, Inhabited

/-- What `parseDiff` carries from line to line. -/
structure DiffState where
  old : ℕ := 0
  next : ℕ := 0
  inHunk : Bool := false
  deriving DecidableEq, Repr, Inhabited

/-- What is behind a front. -/
def behind (front l : List Char) : Option (List Char) :=
  if front <+: l then some (l.drop front.length) else none

/-- `\d+`: a number, and what follows it. -/
def number (l : List Char) : Option (ℕ × List Char) :=
  if l.takeWhile (·.isDigit) = [] then none
  else some (Nat.ofDigitChars 10 (l.takeWhile (·.isDigit)) 0, l.dropWhile (·.isDigit))

/-- `(\d+)(?:,\d+)?`: the start of a range, and what follows the range. -/
def rangeStart (l : List Char) : Option (ℕ × List Char) :=
  (number l).map fun (start, rest) =>
    match (behind [','] rest).bind number with
    | some (_, rest) => (start, rest)
    | none => (start, rest)

/-- `/^@@ -(\d+)(?:,\d+)? \+(\d+)(?:,\d+)? @@/`. -/
def hunkStarts (raw : List Char) : Option (ℕ × ℕ) := do
  let rest ← behind "@@ -".toList raw
  let (old, rest) ← rangeStart rest
  let rest ← behind " +".toList rest
  let (next, rest) ← rangeStart rest
  let _ ← behind " @@".toList rest
  some (old, next)

/-- One line in `parseDiff`. -/
def parseLine (s : DiffState) (raw : List Char) : DiffState × Option DiffLine :=
  match hunkStarts raw with
  | some (old, next) => (⟨old, next, true⟩, some ⟨.hunk, raw, none, none⟩)
  | none =>
    if s.inHunk ∧ raw.head? = some '+' then
      ({ s with next := s.next + 1 }, some ⟨.added, raw.tail, none, some s.next⟩)
    else if s.inHunk ∧ raw.head? = some '-' then
      ({ s with old := s.old + 1 }, some ⟨.removed, raw.tail, some s.old, none⟩)
    else if s.inHunk ∧ raw.head? = some ' ' then
      ({ s with old := s.old + 1, next := s.next + 1 },
        some ⟨.context, raw.tail, some s.old, some s.next⟩)
    else if raw ≠ [] then (s, some ⟨.metadata, raw, none, none⟩)
    else (s, none)

/-- The loop of `parseDiff`. No limit is `POSITIVE_INFINITY`. -/
def parseLoop (limit : Option ℕ) : List (List Char) → DiffState → List DiffLine →
    List DiffLine × Bool
  | [], _, lines => (lines, false)
  | raw :: rest, s, lines =>
    if limit.any (· ≤ lines.length) then (lines, true)
    else parseLoop limit rest (parseLine s raw).1 (lines ++ (parseLine s raw).2.toList)

/-- `parseDiff`. -/
def parseDiff (content : List Char) (limit : Option ℕ) : List DiffLine × Bool :=
  parseLoop limit (content.splitOn '\n') {} []

structure DiffRow where
  left : Option DiffLine := none
  right : Option DiffLine := none
  heading : Option DiffLine := none
  deriving DecidableEq, Repr, Inhabited

/-- The lines of a change, beside each other. -/
def pairRows (removed added : List DiffLine) : List DiffRow :=
  (List.range (max removed.length added.length)).map fun j =>
    { left := removed[j]?, right := added[j]? }

/-- The loop of `splitDiff`. `removed` and `added` are the change that goes on. -/
def splitLoop : List DiffLine → List DiffLine → List DiffLine → List DiffRow
  | [], removed, added => pairRows removed added
  | line :: rest, removed, added =>
    if line.kind = .removed then splitLoop rest (removed ++ [line]) added
    else if line.kind = .added then splitLoop rest removed (added ++ [line])
    else
      pairRows removed added ++
        (if line.kind = .context then { left := some line, right := some line }
          else { heading := some line }) :: splitLoop rest [] []

/-- `splitDiff`. -/
def splitDiff (lines : List DiffLine) : List DiffRow := splitLoop lines [] []

end GitDiff

end LatteWork
