import LatteWork.Lib.Fields
import Mathlib.Data.Nat.Notation

/-!
# Patches of a new file

A unified diff of a file that is new, as what applies it reads it: the quoted path, the number of
lines its only hunk has, and the lines that are added. A line behind them says that the last one
has no end.
-/

namespace Patch

/-- What stands behind a backslash for a byte. -/
def escape : Char → Option UInt8
  | '"' => some 34
  | '\\' => some 92
  | 'a' => some 7
  | 'b' => some 8
  | 't' => some 9
  | 'n' => some 10
  | 'v' => some 11
  | 'f' => some 12
  | 'r' => some 13
  | _ => none

/-- Three octal digits. -/
def octal (c d e : Char) : Option UInt8 :=
  if '0' ≤ c ∧ c ≤ '3' ∧ '0' ≤ d ∧ d ≤ '7' ∧ '0' ≤ e ∧ e ≤ '7' then
    some (UInt8.ofNat ((c.toNat - 48) * 64 + (d.toNat - 48) * 8 + (e.toNat - 48)))
  else none

/-- What is quoted, up to the quote that ends it. -/
def unquoteBody : List Char → Option (List UInt8)
  | [] => none
  | '"' :: rest => if rest = [] then some [] else none
  | '\\' :: c :: rest =>
    match escape c with
    | some b => (unquoteBody rest).map (b :: ·)
    | none =>
      match rest with
      | d :: e :: rest =>
        match octal c d e with
        | some b => (unquoteBody rest).map (b :: ·)
        | none => none
      | _ => none
  | c :: rest => (unquoteBody rest).map (String.utf8EncodeChar c ++ ·)

/-- A path as C quotes it. -/
def unquote : List Char → Option (List UInt8)
  | '"' :: rest => unquoteBody rest
  | _ => none

structure New where
  path : List UInt8
  count : ℕ
  lines : List (List Char)
  /-- The last line has an end. -/
  ended : Bool
  deriving DecidableEq, Repr, Inhabited

def noNewline : List Char := "\\ No newline at end of file".toList

/-- What is behind a front. -/
def after (front l : List Char) : Option (List Char) :=
  if front <+: l then some (l.drop front.length) else none

/-- The number in the header of a hunk that only adds. -/
def hunk (line : List Char) : Option ℕ := do
  let rest ← after "@@ -0,0 +1,".toList line
  let digits := rest.takeWhile (·.isDigit)
  if digits ≠ [] ∧ rest.drop digits.length = " @@".toList then
    some (Nat.ofDigitChars 10 digits 0)
  else none

/-- The lines of a hunk that only adds. -/
def readLines : List (List Char) → Option (List (List Char) × Bool)
  | [[]] => some ([], true)
  | ('+' :: line) :: rest => (readLines rest).map fun (lines, ended) => (line :: lines, ended)
  | [line, []] => if line = noNewline then some ([], false) else none
  | _ => none

def read (text : List Char) : Option New :=
  match text.splitOn '\n' with
  | old :: new :: header :: rest => do
    if old ≠ "--- /dev/null".toList then none
    let path ← unquote (← after "+++ ".toList new)
    let count ← hunk header
    let (lines, ended) ← readLines rest
    some { path, count, lines, ended }
  | _ => none

/-- What the lines of a patch make of an empty file. -/
def New.apply (p : New) : List Char :=
  let text := Fields.join '\n' p.lines
  if p.ended then text else text.dropLast

end Patch
