import LatteWork.Runtime.Adapter

/-!
# Native messages

Reading the JSON messages of an agent the way `serde_json` values are read: a missing field is
null, and a field of another kind is none.
-/

namespace LatteWork

open Fallible

namespace Json

/-- `value[key]`. -/
def index (v : Json) (key : String) : Json := (v.get? key).getD .null

def isNull : Json → Bool
  | .null => true
  | _ => false

def bool? : Json → Option Bool
  | .bool b => some b
  | _ => none

def arr? : Json → Option (List Json)
  | .arr items => some items
  | _ => none

def obj? : Json → Option (List (String × Json))
  | .obj fields => some fields
  | _ => none

/-- The items of an array, none for another value: `as_array().into_iter().flatten()`. -/
def items (v : Json) : List Json := v.arr?.getD []

/-- The number a run of decimal digits writes. -/
def digits? : List Char → Option ℕ
  | [] => none
  | c :: rest =>
    (c :: rest).foldl (fun n d => n.bind fun n =>
      if d.isDigit then some (n * 10 + (d.toNat - '0'.toNat)) else none) (some 0)

/-- `as_u64`. -/
def u64? : Json → Option ℕ
  | .num text => (digits? text.toList).filter (· < 2 ^ 64)
  | _ => none

/-- `as_i64`. -/
def i64? : Json → Option Int
  | .num text =>
    match text.toList with
    | '-' :: rest => ((digits? rest).filter fun n => 0 < n && n ≤ 2 ^ 63).map fun n => -(n : Int)
    | digits => ((digits? digits).filter (· < 2 ^ 63)).map fun n => (n : Int)
  | _ => none

end Json

example : (Json.num "42").u64? = some 42 ∧ (Json.num "4.5").u64? = none ∧
    (Json.num "-7").i64? = some (-7) := by decide

/-- `text.trim_start().starts_with('/')`. -/
def startsCommand (text : String) : Bool :=
  (text.toList.dropWhile isWhitespace).head? = some '/'

/-- `text.chars().take(limit).collect()`. -/
def takeChars (limit : ℕ) (text : String) : String := String.ofList (text.toList.take limit)

/-- `str::split_once`, on characters. -/
def splitOnce (separator : List Char) : List Char → Option (List Char × List Char)
  | [] => if separator = [] then some ([], []) else none
  | c :: rest =>
    if separator <+: c :: rest then some ([], (c :: rest).drop separator.length)
    else (splitOnce separator rest).map fun p => (c :: p.1, p.2)

example : splitOnce "--".toList "a--b--c".toList = some ("a".toList, "b--c".toList) := by decide

end LatteWork
