import LatteWork.Lib.Fields
import LatteWork.Snapshot.Disk

/-!
# Bounded Git listings

The changes of a project as Git lists them, each field with a NUL behind it, read from an output
that is cut at a limit.
-/

namespace LatteWork

namespace Git

def nul : Char := Char.ofNat 0

/-- What `from_utf8_lossy` puts in place of a character that is cut. -/
def replacement : Char := Char.ofNat 0xFFFD

/-- `git` on what the command writes, with `LIMIT` as a parameter: the text, and whether it was
cut. -/
def read (limit : ℕ) (output : List Char) : List Char × Bool :=
  (Fields.cut Char.utf8Size replacement limit output,
    limit < Fields.weight Char.utf8Size output)

inductive ChangeSection where
  | unstaged | staged | untracked
  deriving DecidableEq, Repr, Inhabited

structure GitChange where
  path : String
  previousPath : Option String
  changeSection : ChangeSection
  status : String
  deriving DecidableEq, Repr, Inhabited

/-- `str::as_bytes`. -/
def asBytes (s : List Char) : List UInt8 := s.flatMap String.utf8EncodeChar

@[simp]
theorem asBytes_nil : asBytes [] = [] := rfl

@[simp]
theorem asBytes_cons (c : Char) (s : List Char) :
    asBytes (c :: s) = String.utf8EncodeChar c ++ asBytes s := rfl

@[simp]
theorem asBytes_append (s t : List Char) : asBytes (s ++ t) = asBytes s ++ asBytes t :=
  List.flatMap_append

theorem encode_ascii {c : Char} (h : c.toNat < 128) :
    String.utf8EncodeChar c = [UInt8.ofNat c.toNat] := by
  unfold String.utf8EncodeChar
  exact if_pos (Nat.le_of_lt_succ h)

/-- `&s[n..]`, in bytes. -/
def dropBytes : ℕ → List Char → List Char
  | _, [] => []
  | n, c :: rest => if n = 0 then c :: rest else dropBytes (n - c.utf8Size) rest

/-- `str::strip_prefix`. -/
def stripPrefix (front s : List Char) : Option (List Char) :=
  if front <+: s then some (s.drop front.length) else none

/-- The two status letters of a record, each `char::from` its byte. -/
def flags (record : List Char) : List Char :=
  ((asBytes record).take 2).map fun b => Char.ofNat b.toNat

def moved (flag : Char) : Bool := flag = 'R' || flag = 'C'

/-- The sections of one change. `true` when the limit is reached before the last of them. -/
def pushSections (path : List Char) (previousPath : Option (List Char)) :
    List (Char × ChangeSection) → List GitChange → List GitChange × Bool
  | [], entries => (entries, false)
  | (flag, changeSection) :: rest, entries =>
    if flag = ' ' ∨ flag = '!' then pushSections path previousPath rest entries
    else if 1000 ≤ entries.length then (entries, true)
    else
      pushSections path previousPath rest (entries ++
        [{ path := String.ofList path
           previousPath := if moved flag then previousPath.map String.ofList else none
           changeSection, status := String.singleton flag }])

def sections (letters : List Char) : List (Char × ChangeSection) :=
  if letters = ['?', '?'] then [('?', .untracked)] else letters.zip [.staged, .unstaged]

/-- One turn of the loop of `changes`. An error leaves the loop. `more` says that a field that is
not empty is still to be read. -/
def addChange (front record : List Char) (previous : Option (List Char)) (more : Bool)
    (entries : List GitChange) : Except (List GitChange × Bool) (List GitChange) :=
  match stripPrefix front (dropBytes 3 record) with
  | none | some [] => .ok entries
  | some path =>
    let (entries, full) :=
      pushSections path (previous.bind (stripPrefix front)) (sections (flags record)) entries
    if 1000 ≤ entries.length then .error (entries, full || more) else .ok entries

/-- The loop of `changes`. -/
def changesLoop (front : List Char) : List (List Char) → List GitChange → List GitChange × Bool
  | [], entries => (entries, false)
  | record :: rest, entries =>
    if record = [] then changesLoop front rest entries
    else if (asBytes record).length < 4 ∨ (asBytes record)[2]? ≠ some 32 then (entries, true)
    else if (flags record).any moved then
      match rest with
      | [] =>
        match addChange front record none false entries with
        | .error out => out
        | .ok entries => (entries, false)
      | previous :: rest =>
        match addChange front record (some previous) (rest.any (· ≠ [])) entries with
        | .error out => out
        | .ok entries => changesLoop front rest entries
    else
      match addChange front record none (rest.any (· ≠ [])) entries with
      | .error out => out
      | .ok entries => changesLoop front rest entries

/-- `prefix.strip_suffix('\n')`. -/
def projectPrefix (text : List Char) : List Char :=
  if text.getLast? = some '\n' then text.dropLast else text

/-- `changes`, from what `rev-parse --show-prefix` and `status` write. -/
def changes (showPrefix : List Char) (status : List Char × Bool) : List GitChange × Bool :=
  let complete := (status.1.reverse.dropWhile (· ≠ nul)).reverse
  let (entries, truncated) := changesLoop (projectPrefix showPrefix) (complete.splitOn nul) []
  (entries, status.2 || truncated)

structure GitReviewFile where
  path : String
  previousPath : Option String
  status : String
  added : Option ℕ := none
  removed : Option ℕ := none
  binary : Bool := false
  untracked : Bool := false
  deriving DecidableEq, Repr, Inhabited

def fileLimit : ℕ := 1000

/-- `valid_path`. -/
def validPath (path : String) : Bool :=
  path.utf8ByteSize ≤ 4096 && !path.toList.contains nul && (validatePath path).toBool

/-- One turn of the loop of `listing`: the entries, and whether one is left out. An error leaves
the loop. -/
def addFile (status path : List Char) (previousPath : Option (List Char))
    (entries : List GitReviewFile) :
    Except (List GitReviewFile) (List GitReviewFile × Bool) :=
  let path := String.ofList path
  let previousPath := previousPath.map String.ofList
  if validPath path = false ∨ previousPath.any (fun p => !validPath p) then .ok (entries, true)
  else if entries.any fun e => e.path = path then
    .ok (entries.map fun e =>
      if e.path = path ∧ status.head? = some 'U' then { e with status := "U" } else e, false)
  else if entries.length = fileLimit then .error entries
  else .ok (entries ++ [{ path, previousPath, status := String.ofList (status.take 1) }], false)

/-- The loop of `listing`. -/
def listingLoop : List (List Char) → List GitReviewFile → Bool → List GitReviewFile × Bool
  | [], entries, truncated => (entries, truncated)
  | status :: rest, entries, truncated =>
    if status = [] then listingLoop rest entries truncated
    else
      match rest with
      | [] => (entries, true)
      | first :: rest =>
        if status.head?.any moved then
          match rest with
          | [] => (entries, true)
          | second :: rest =>
            match addFile status second (some first) entries with
            | .error entries => (entries, true)
            | .ok (entries, left) => listingLoop rest entries (truncated || left)
        else
          match addFile status first none entries with
          | .error entries => (entries, true)
          | .ok (entries, left) => listingLoop rest entries (truncated || left)

/-- `listing`, from what `diff --name-status -z` writes. -/
def listing (names : List Char × Bool) : List GitReviewFile × Bool :=
  listingLoop (names.1.splitOn nul) [] names.2

end Git

end LatteWork
