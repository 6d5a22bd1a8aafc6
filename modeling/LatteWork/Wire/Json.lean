import Mathlib.Algebra.GroupWithZero.Nat
import Mathlib.Data.List.Basic
import Mathlib.Data.Nat.Notation

/-!
# JSON text

The compact text `serde_json` writes for a value. The wire limits and the row limits of the
database are counted on this text, so it is a string here and its size is a number of UTF-8
bytes.
-/

namespace LatteWork

/-- The adapters look an optional field up in lists of the texts they know. -/
instance lawfulOptionText : LawfulBEq (Option String) := inferInstance

/-- A `serde_json::Value`. A number is kept as the text it prints. -/
inductive Json where
  | null
  | bool (b : Bool)
  | num (text : String)
  | str (s : String)
  | arr (items : List Json)
  | obj (fields : List (String × Json))
  deriving Inhabited

namespace Json

/-- The two hexadecimal digits of a control character's escape. -/
def hexByte (n : ℕ) : String :=
  String.ofList [Nat.digitChar (n / 16), Nat.digitChar (n % 16)]

/-- What `serde_json` writes for one character of a string. -/
def escapeChar (c : Char) : String :=
  if c = '"' then "\\\""
  else if c = '\\' then "\\\\"
  else if c.toNat = 8 then "\\b"
  else if c.toNat = 9 then "\\t"
  else if c.toNat = 10 then "\\n"
  else if c.toNat = 12 then "\\f"
  else if c.toNat = 13 then "\\r"
  else if c.toNat < 32 then "\\u00" ++ hexByte c.toNat
  else String.singleton c

/-- The text between the quotes. -/
def escape : List Char → String
  | [] => ""
  | c :: rest => escapeChar c ++ escape rest

def quote (s : String) : String := "\"" ++ escape s.toList ++ "\""

mutual

/-- Compact text of a value: no white space, the fields in the order given. -/
def render : Json → String
  | .null => "null"
  | .bool true => "true"
  | .bool false => "false"
  | .num text => text
  | .str s => quote s
  | .arr items => "[" ++ renderItems items ++ "]"
  | .obj fields => "\x7b" ++ renderFields fields ++ "\x7d"

/-- The items of an array, each after the first behind a comma. -/
def renderItems : List Json → String
  | [] => ""
  | v :: rest => render v ++ renderMoreItems rest

def renderMoreItems : List Json → String
  | [] => ""
  | v :: rest => "," ++ render v ++ renderMoreItems rest

def renderFields : List (String × Json) → String
  | [] => ""
  | (k, v) :: rest => quote k ++ ":" ++ render v ++ renderMoreFields rest

def renderMoreFields : List (String × Json) → String
  | [] => ""
  | (k, v) :: rest => "," ++ quote k ++ ":" ++ render v ++ renderMoreFields rest

end

/-- Bytes of the text. -/
def size (v : Json) : ℕ := v.render.utf8ByteSize

/-- A whole number in an `f64` field: a row number or milliseconds. An `f64` is exact up to
`2 ^ 53`; no row number and no time gets there, and what is above prints as that bound. -/
def f64 (n : ℕ) : Json := .num (toString (min n (2 ^ 53)) ++ ".0")

def nat (n : ℕ) : Json := .num (toString n)

def opt {α : Type*} (f : α → Json) : Option α → Json
  | none => .null
  | some a => f a

/-- A field that is left out when it is `None` (`skip_serializing_if`). -/
def optField {α : Type*} (key : String) (f : α → Json) : Option α → List (String × Json)
  | none => []
  | some a => [(key, f a)]

/-- `Value::get` on an object. -/
def get? (key : String) : Json → Option Json
  | .obj fields => fields.lookup key
  | _ => none

def str? : Json → Option String
  | .str s => some s
  | _ => none

example : (obj [("a", arr [nat 1, .null]), ("b", str "x\n")]).render =
    "\x7b\"a\":[1,null],\"b\":\"x\\n\"\x7d" := by decide

end Json

end LatteWork
