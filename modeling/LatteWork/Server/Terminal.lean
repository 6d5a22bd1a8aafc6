import LatteWork.Lib.Fallible
import LatteWork.Lib.Ring
import LatteWork.Wire.F64

/-!
# The output of a terminal

What a terminal writes is kept in a bounded ring. A client reads it from a cursor, which counts the
bytes since the terminal was opened and travels as a floating-point number.
-/

namespace LatteWork

open Fallible

namespace Terminal

def outputLimit : ℕ := 1024 * 1024

def readLimit : ℕ := 64 * 1024

/-- `Output`. The bytes are those of a `VecDeque`, the oldest first. -/
structure Output where
  bytes : List UInt8 := []
  stop : ℕ := 0
  eof : Bool := false
  deriving Inhabited

namespace Output

/-- `append`. -/
def append (o : Output) (bytes : List UInt8) : Output :=
  let all := o.bytes ++ bytes
  { o with stop := o.stop + bytes.length, bytes := all.drop (all.length - outputLimit) }

/-- `after as u64`, of a whole number. -/
def cursor (after : ℚ) : ℕ := min after.num.toNat (2 ^ 64 - 1)

/-- `read`: the bytes, the next cursor, and whether there are more and whether some were lost. -/
def read (o : Output) : F64 → Except String (List UInt8 × F64 × Bool × Bool)
  | .nan | .infinite _ => .error "无效的终端输出游标"
  | .finite after => do
    bailIf (after < 0 ∨ after.den ≠ 1 ∨ (F64.round o.stop : ℚ) < after) "无效的终端输出游标"
    let start := o.stop - o.bytes.length
    let offset := max (cursor after) start
    let data := (o.bytes.drop (offset - start)).take readLimit
    let next := offset + data.length
    .ok (data, .ofNat next, next < o.stop, cursor after < start)

end Output

/-- A terminal and a client that reads its output from the start, following the cursors. -/
structure Reader where
  output : Output := {}
  cursor : F64 := .finite 0
  data : List UInt8 := []
  lost : Bool := false
  deriving Inhabited

inductive Op where
  | append (bytes : List UInt8)
  | read
  deriving Inhabited

namespace Reader

def step (r : Reader) : Op → Reader
  | .append bytes => { r with output := r.output.append bytes }
  | .read =>
    match r.output.read r.cursor with
    | .error _ => r
    | .ok (data, next, _, lost) =>
      { r with cursor := next, data := r.data ++ data, lost := r.lost || lost }

/-- All that the terminal wrote. -/
def written (ops : List Op) : List UInt8 :=
  ops.flatMap fun op =>
    match op with
    | .append bytes => bytes
    | .read => []

end Reader

end Terminal

end LatteWork
