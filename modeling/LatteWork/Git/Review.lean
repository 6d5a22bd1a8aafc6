import LatteWork.Git.Listing
import LatteWork.Lib.Lines

/-!
# The review of a project's changes

The rows of a review with their counts, and the diff of one path. A file that Git does not track
has no diff of Git's: its rows are counted, and its patch is written, from its content.
-/

namespace LatteWork

namespace Git

inductive GitReviewScope where
  | branch | commit | worktree | unstaged | staged
  deriving DecidableEq, Repr, Inhabited

def contentLimit : ℕ := 512 * 1024

/-- `untracked_content`, of a regular file: the bytes that are read, and whether some are left. -/
def untrackedContent (file : List UInt8) : List UInt8 × Bool :=
  (file.take contentLimit, contentLimit < file.length)

/-- `parse::<u32>`. -/
def parseU32 (s : List Char) : Option ℕ :=
  let digits := if s.head? = some '+' then s.tail else s
  if digits ≠ [] ∧ digits.all (·.isDigit) ∧ Nat.ofDigitChars 10 digits 0 < 2 ^ 32 then
    some (Nat.ofDigitChars 10 digits 0)
  else none

/-- `splitn(3, '\t')`, where there are three. -/
def splitTabs (record : List Char) : Option (List Char × List Char × List Char) :=
  match record.splitOn '\t' with
  | added :: removed :: path :: rest => some (added, removed, ['\t'].intercalate (path :: rest))
  | _ => none

abbrev Stat := Option ℕ × Option ℕ × Bool

def fileStat (added removed : List Char) : Stat :=
  (parseU32 added, parseU32 removed, added = ['-'])

/-- The loop of `review` over what `diff --numstat -z` writes, the last record of a path first.
`true` when a record is cut. -/
def statsLoop : List (List Char) → List (List Char × Stat) → List (List Char × Stat) × Bool
  | [], stats => (stats, false)
  | record :: rest, stats =>
    if record = [] then statsLoop rest stats
    else
      match splitTabs record with
      | none => (stats, true)
      | some (added, removed, path) =>
        if path = [] then
          match rest with
          | _ :: new :: rest => statsLoop rest ((new, fileStat added removed) :: stats)
          | _ => (stats, true)
        else statsLoop rest ((path, fileStat added removed) :: stats)

def withStat (stats : List (List Char × Stat)) (entry : GitReviewFile) : GitReviewFile :=
  match stats.lookup entry.path.toList with
  | some (added, removed, binary) => { entry with added, removed, binary }
  | none => entry

/-- The lines of `data.split(|b| *b == b'\n')`, without the one that is empty at the end. -/
def addedLines (data : List UInt8) : ℕ :=
  ((data.splitOn 10).length - if data.getLast? = some 10 ∨ data = [] then 1 else 0) % 2 ^ 32

/-- The row of a file that is not tracked, from what was read of it. -/
def untrackedFile (path : String) (data : List UInt8) (cut : Bool) : GitReviewFile :=
  let binary := data.contains 0
  { path, previousPath := none, status := "A", untracked := true, binary
    added := if !cut && !binary then some (addedLines data) else none
    removed := if !cut && !binary then some 0 else none }

/-- The loop of `review` over the files that are not tracked. `bytes` is what was read so far. -/
def addUntracked (content : String → Option (List UInt8)) :
    List String → List GitReviewFile → ℕ → Bool → List GitReviewFile × Bool
  | [], entries, _, truncated => (entries, truncated)
  | path :: rest, entries, bytes, truncated =>
    if entries.length = fileLimit then (entries, true)
    else
      let unread : GitReviewFile :=
        { path, previousPath := none, status := "A", untracked := true }
      if bytes < 2 * contentLimit then
        match content path with
        | some file =>
          let (data, cut) := untrackedContent file
          addUntracked content rest (entries ++ [untrackedFile path data cut])
            (bytes + data.length) (truncated || cut)
        | none => addUntracked content rest (entries ++ [unread]) bytes true
      else addUntracked content rest (entries ++ [unread]) bytes true

/-- The paths of `changes` that Git does not track. -/
def untrackedPaths (changed : List GitChange) : List String :=
  (changed.filter (·.changeSection = .untracked)).map (·.path)

/-- The entries of `review`, from what Git writes and from the files that are not tracked. -/
def review (scope : GitReviewScope) (names numstat : List Char × Bool)
    (changed : List GitChange × Bool) (content : String → Option (List UInt8)) :
    List GitReviewFile × Bool :=
  let (entries, truncated) := listing names
  let (stats, broken) := statsLoop (numstat.1.splitOn nul) []
  let truncated := truncated || numstat.2 || broken ||
    entries.any fun entry => (stats.lookup entry.path.toList).isNone
  let entries := entries.map (withStat stats)
  let (entries, truncated) :=
    if scope = .worktree ∨ scope = .unstaged then
      addUntracked content (untrackedPaths changed.1) entries 0 (truncated || changed.2)
    else (entries, truncated)
  (entries.mergeSort fun a b => !decide (b.path < a.path), truncated)

/-- The bytes behind `b` that are the front of a character. -/
def brokenTail (b : UInt8) (rest : List UInt8) : ℕ :=
  let within (low high : UInt8) (d : UInt8) : Bool := low ≤ d && d ≤ high
  let first := (rest.head?.filter fun d =>
    if b = 0xE0 then within 0xA0 0xBF d
    else if b = 0xED then within 0x80 0x9F d
    else if b = 0xF0 then within 0x90 0xBF d
    else if b = 0xF4 then within 0x80 0x8F d
    else within 0x80 0xBF d).isSome
  let second := (rest[1]?.filter (within 0x80 0xBF)).isSome
  if within 0xE0 0xEF b then if first then 1 else 0
  else if within 0xF0 0xF4 b then if first then if second then 2 else 1 else 0
  else 0

/-- `from_utf8_lossy`, with the bytes that are already read. -/
def lossyLoop : ℕ → List UInt8 → List Char
  | _, [] => []
  | skip + 1, _ :: rest => lossyLoop skip rest
  | 0, b :: rest =>
    match (b :: rest).toByteArray.utf8DecodeChar? 0 with
    | some c => c :: lossyLoop (c.utf8Size - 1) rest
    | none => replacement :: lossyLoop (brokenTail b rest) rest

def fromUtf8Lossy (data : List UInt8) : List Char := lossyLoop 0 data

/-- One byte in `quote_path`. -/
def quoteByte (b : UInt8) : List Char :=
  if b = 34 ∨ b = 92 then ['\\', Char.ofNat b.toNat]
  else if 32 ≤ b ∧ b ≤ 126 then [Char.ofNat b.toNat]
  else ['\\', Nat.digitChar (b.toNat / 64), Nat.digitChar (b.toNat / 8 % 8),
    Nat.digitChar (b.toNat % 8)]

/-- `quote_path`. -/
def quotePath (path : List Char) : List Char :=
  '"' :: (asBytes path).flatMap quoteByte ++ ['"']

/-- A line of `str::lines`, of a part that `split_inclusive` gives. -/
def lineOf (part : List Char) : List Char :=
  if part.getLast? = some '\n' then
    let line := part.dropLast
    if line.getLast? = some '\r' then line.dropLast else line
  else part

/-- `str::lines`. -/
def textLines (text : List Char) : List (List Char) :=
  (Lines.split (fun c => c = '\n') text).map lineOf

/-- The patch that `diff` writes for a file that is not tracked. -/
def untrackedDiff (path : String) (file : List UInt8) : List Char × Bool :=
  let (data, truncated) := untrackedContent file
  if data.contains 0 then ("Binary files differ\n".toList, truncated)
  else
    let lines := textLines (fromUtf8Lossy data)
    let header := "--- /dev/null\n+++ ".toList ++ quotePath ("b/".toList ++ path.toList) ++
      "\n@@ -0,0 +1,".toList ++ (Nat.repr lines.length).toList ++ " @@\n".toList
    let patch := header ++ lines.flatMap fun line => '+' :: line ++ ['\n']
    (if data ≠ [] ∧ data.getLast? ≠ some 10 then patch ++ "\\ No newline at end of file\n".toList
      else patch, truncated)

/-- `diff`, from what it reads: the commit at `HEAD`, the changes that Git lists, the diff that Git
writes for one of them, and the files that are not tracked. -/
def diff (scope : GitReviewScope) (current : Option String) (names : List Char × Bool)
    (gitDiff : GitReviewFile → List Char × Bool) (changed : List GitChange × Bool)
    (content : String → Option (List UInt8)) (head : Option String) (path : String) :
    Option (List Char × Bool) :=
  if validPath path = false then none
  else if (scope = .worktree ∨ scope = .staged) ∧ current ≠ head then none
  else
    match (listing names).1.find? (·.path = path) with
    | some entry => some (gitDiff entry)
    | none =>
      if scope = .worktree ∨ scope = .unstaged then
        if changed.1.any fun e => e.path = path ∧ e.changeSection = .untracked then
          (content path).map (untrackedDiff path)
        else some ([], false)
      else some ([], false)

end Git

end LatteWork
