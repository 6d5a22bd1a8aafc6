import LatteWork.Lib.Assoc
import LatteWork.Wire.Json

/-!
# Reading JSON text

A text is split into tokens, character by character, and the tokens are put together on a stack of
the arrays and objects that are open. What `render` writes of strings, arrays and objects is read
back, and a line break of a text that is read stands between two tokens.
-/

namespace LatteWork

namespace Json

inductive Token where
  | openArr
  | closeArr
  | openObj
  | closeObj
  | comma
  | colon
  | str (s : List Char)
  | word (w : List Char)
  deriving DecidableEq, Repr

/-- Where in a token the text is. Of a pair of escaped surrogates `high` is the first. -/
inductive LexMode where
  | between
  | word (w : List Char)
  | string (s : List Char)
  | escape (s : List Char)
  | hex (s : List Char) (high : Option ℕ) (digits value : ℕ)
  | high (s : List Char) (high : ℕ)
  | highEscape (s : List Char) (high : ℕ)
  deriving DecidableEq, Repr

structure Lexer where
  tokens : List Token := []
  mode : LexMode := .between
  deriving DecidableEq, Repr

/-- The white space of JSON. -/
def space (c : Char) : Bool := c = ' ' || c = '\n' || c = '\r' || c = '\t'

/-- A character of a number or a name. -/
def wordChar (c : Char) : Bool := c.isAlphanum || c = '+' || c = '-' || c = '.'

def punctuation (c : Char) : Option Token :=
  if c = '[' then some .openArr
  else if c = ']' then some .closeArr
  else if c.toNat = 123 then some .openObj
  else if c.toNat = 125 then some .closeObj
  else if c = ',' then some .comma
  else if c = ':' then some .colon
  else none

/-- The character a short escape stands for. -/
def shortEscape (c : Char) : Option Char :=
  if c = '"' ∨ c = '\\' ∨ c = '/' then some c
  else if c = 'b' then some (Char.ofNat 8)
  else if c = 't' then some '\t'
  else if c = 'n' then some '\n'
  else if c = 'f' then some (Char.ofNat 12)
  else if c = 'r' then some '\r'
  else none

def hexDigit (c : Char) : Option ℕ :=
  if '0' ≤ c ∧ c ≤ '9' then some (c.toNat - 48)
  else if 'a' ≤ c ∧ c ≤ 'f' then some (c.toNat - 87)
  else if 'A' ≤ c ∧ c ≤ 'F' then some (c.toNat - 55)
  else none

/-- An escaped code unit is complete. A surrogate that is not one of a pair is no character. -/
def unitMode (s : List Char) (high : Option ℕ) (unit : ℕ) : Option LexMode :=
  match high with
  | some h =>
    if 0xDC00 ≤ unit ∧ unit < 0xE000 then
      some (.string (s ++ [Char.ofNat (0x10000 + (h - 0xD800) * 0x400 + (unit - 0xDC00))]))
    else none
  | none =>
    if 0xD800 ≤ unit ∧ unit < 0xDC00 then some (.high s unit)
    else if 0xDC00 ≤ unit ∧ unit < 0xE000 then none
    else some (.string (s ++ [Char.ofNat unit]))

namespace Lexer

/-- A character between two tokens. -/
def start (tokens : List Token) (c : Char) : Option Lexer :=
  if space c then some { tokens }
  else if c = '"' then some { tokens, mode := .string [] }
  else if wordChar c then some { tokens, mode := .word [c] }
  else (punctuation c).map fun t => { tokens := tokens ++ [t] }

def step (l : Lexer) (c : Char) : Option Lexer :=
  match l.mode with
  | .between => start l.tokens c
  | .word w =>
    if wordChar c then some { l with mode := .word (w ++ [c]) }
    else start (l.tokens ++ [.word w]) c
  | .string s =>
    if c = '"' then some { tokens := l.tokens ++ [.str s] }
    else if c = '\\' then some { l with mode := .escape s }
    else if c.toNat < 32 then none
    else some { l with mode := .string (s ++ [c]) }
  | .escape s =>
    if c = 'u' then some { l with mode := .hex s none 0 0 }
    else (shortEscape c).map fun e => { l with mode := .string (s ++ [e]) }
  | .hex s high digits value => do
    let d ← hexDigit c
    if digits < 3 then some { l with mode := .hex s high (digits + 1) (16 * value + d) }
    else (unitMode s high (16 * value + d)).map fun mode => { l with mode }
  | .high s high => if c = '\\' then some { l with mode := .highEscape s high } else none
  | .highEscape s high => if c = 'u' then some { l with mode := .hex s (some high) 0 0 } else none

/-- The tokens of a text that ends here. -/
def finish (l : Lexer) : Option (List Token) :=
  match l.mode with
  | .between => some l.tokens
  | .word w => some (l.tokens ++ [.word w])
  | _ => none

end Lexer

/-- A number: its digits, a fraction and an exponent. -/
def isNumber (w : List Char) : Bool :=
  let w := if w.head? = some '-' then w.tail else w
  let whole := w.takeWhile Char.isDigit
  let rest :=
    match w.dropWhile Char.isDigit with
    | '.' :: more =>
      if more.takeWhile Char.isDigit = [] then none else some (more.dropWhile Char.isDigit)
    | more => some more
  let exponent (l : List Char) : Bool :=
    let l := if l.head? = some '+' || l.head? = some '-' then l.tail else l
    l ≠ [] && l.all Char.isDigit
  whole ≠ [] && (whole = ['0'] || whole.head? ≠ some '0') &&
    match rest with
    | none => false
    | some [] => true
    | some (e :: more) => (e = 'e' || e = 'E') && exponent more

def wordValue (w : List Char) : Option Json :=
  if w = "null".toList then some .null
  else if w = "true".toList then some (.bool true)
  else if w = "false".toList then some (.bool false)
  else if isNumber w then some (.num (String.ofList w))
  else none

/-- An array or an object that is open. Of two fields of one key the later counts. -/
inductive Frame where
  | items (done : List Json)
  | fields (done : List (String × Json)) (key : String)
  deriving Inhabited

inductive Expect where
  | value
  | firstItem
  | firstKey
  | key
  | colon
  | separator
  | done (v : Json)
  deriving Inhabited

structure Build where
  frames : List Frame := []
  expect : Expect := .value
  deriving Inhabited

namespace Build

/-- A value is complete. -/
def put (frames : List Frame) (v : Json) : Build :=
  match frames with
  | [] => ⟨[], .done v⟩
  | .items done :: rest => ⟨.items (done ++ [v]) :: rest, .separator⟩
  | .fields done key :: rest => ⟨.fields (Assoc.put key v done) key :: rest, .separator⟩

def start (frames : List Frame) : Token → Option Build
  | .str s => some (put frames (.str (String.ofList s)))
  | .word w => (wordValue w).map (put frames)
  | .openArr => some ⟨.items [] :: frames, .firstItem⟩
  | .openObj => some ⟨.fields [] "" :: frames, .firstKey⟩
  | _ => none

def close (frames : List Frame) (t : Token) : Option Build :=
  match frames, t with
  | .items done :: rest, .closeArr => some (put rest (.arr done))
  | .fields done _ :: rest, .closeObj => some (put rest (.obj done))
  | _, _ => none

def takeKey (frames : List Frame) (t : Token) : Option Build :=
  match frames, t with
  | .fields done _ :: rest, .str key => some ⟨.fields done (String.ofList key) :: rest, .colon⟩
  | _, _ => none

def step (b : Build) (t : Token) : Option Build :=
  match b.expect with
  | .value => start b.frames t
  | .firstItem => if t = .closeArr then close b.frames t else start b.frames t
  | .firstKey => if t = .closeObj then close b.frames t else takeKey b.frames t
  | .key => takeKey b.frames t
  | .colon => if t = .colon then some { b with expect := .value } else none
  | .separator =>
    if t = .comma then
      match b.frames with
      | .items _ :: _ => some { b with expect := .value }
      | .fields .. :: _ => some { b with expect := .key }
      | [] => none
    else close b.frames t
  | .done _ => none

def finish (b : Build) : Option Json :=
  match b.expect with
  | .done v => some v
  | _ => none

end Build

/-- The tokens of a text. -/
def tokens (text : List Char) : Option (List Token) :=
  (text.foldlM Lexer.step {}).bind Lexer.finish

/-- The value of a text. -/
def parse (text : List Char) : Option Json :=
  (tokens text).bind fun ts => (ts.foldlM Build.step {}).bind Build.finish

end Json

end LatteWork
