import LatteWork.Lib.Runs
import LatteWork.Server.Terminal
import Mathlib.Data.Rat.Cast.Order

/-!
# Reading the output of a terminal

The ring has the end of what was written, so a read is a stretch of it, at the place its cursors
say (`Terminal.output_ring`).
-/

namespace LatteWork

namespace Terminal

open Fallible

/-- A cursor that a client may have: a number of bytes that were written. -/
def Cursor (stream : List UInt8) (after : F64) (n : ℕ) : Prop :=
  after = .finite n ∧ n ≤ stream.length

/-- A read at a cursor: the bytes from there on, or from the first one kept, up to the next
cursor. -/
structure ReadAt (stream : List UInt8) (n : ℕ) (data : List UInt8) (next : F64)
    (more lost : Bool) (m : ℕ) : Prop where
  cursor : Cursor stream next m
  stretch : data = (stream.take m).drop (max n (Ring.first outputLimit stream.length))
  reaches : max n (Ring.first outputLimit stream.length) + data.length = m
  limit : data.length ≤ readLimit
  hasMore : more = true ↔ m ≠ stream.length
  full : more = true → data.length = readLimit
  truncated : lost = true ↔ n < Ring.first outputLimit stream.length

/-- The ring has the end of what was written. -/
structure Output.Keeps (stream : List UInt8) (o : Output) : Prop where
  bytes : o.bytes = stream.rtake outputLimit
  stop : o.stop = stream.length

theorem Output.Keeps.append {stream : List UInt8} {o : Output} (h : o.Keeps stream)
    (bytes : List UInt8) : (o.append bytes).Keeps (stream ++ bytes) := by
  refine ⟨?_, ?_⟩
  · rw [← Ring.rtake_append, ← h.bytes]
    simp only [Output.append, List.rtake]
  · rw [List.length_append, ← h.stop]
    rfl

theorem cursor_eq {n : ℕ} (h : n < 2 ^ 53) : Output.cursor n = n := by
  rw [Output.cursor, Rat.num_natCast, Int.toNat_natCast]
  omega

variable {stream : List UInt8} {o : Output}

/-- A cursor is a whole number that is not beyond the end. -/
theorem Output.Keeps.cursor_iff (h : o.Keeps stream) (hlen : stream.length < 2 ^ 53) (after : ℚ) :
    ¬(after < 0 ∨ after.den ≠ 1 ∨ (F64.round o.stop : ℚ) < after) ↔
      ∃ n : ℕ, after = n ∧ n ≤ stream.length := by
  rw [h.stop, F64.round_eq hlen]
  rw [not_or, not_or, not_lt, not_lt, not_not]
  constructor
  · rintro ⟨hpos, hden, hend⟩
    have hnum : (after.num : ℚ) = after := (Rat.den_eq_one_iff after).1 hden
    have htoNat : ((after.num.toNat : ℤ) : ℚ) = after := by
      rw [Int.toNat_of_nonneg (Rat.num_nonneg.2 hpos), hnum]
    refine ⟨after.num.toNat, htoNat.symm, ?_⟩
    rw [← htoNat] at hend
    exact_mod_cast hend
  · rintro ⟨n, rfl, hn⟩
    exact ⟨Nat.cast_nonneg n, Rat.den_natCast n, by exact_mod_cast hn⟩

/-- A read at a cursor succeeds. -/
theorem Output.Keeps.read_ok (h : o.Keeps stream) (hlen : stream.length < 2 ^ 53) {n : ℕ}
    (hn : n ≤ stream.length) : ∃ data next more lost m,
      o.read (.finite n) = .ok (data, next, more, lost) ∧ ReadAt stream n data next more lost m := by
  have hgo := (h.cursor_iff hlen n).2 ⟨n, rfl, hn⟩
  have hstart : o.stop - o.bytes.length = Ring.first outputLimit stream.length := by
    rw [h.stop, h.bytes, Ring.first_eq]
  have hcursor : Output.cursor n = n := cursor_eq (by omega)
  have hfirst : Ring.first outputLimit stream.length ≤ stream.length := Nat.sub_le _ _
  have hdata : o.bytes.drop (max n (Ring.first outputLimit stream.length) -
      Ring.first outputLimit stream.length) =
        stream.drop (max n (Ring.first outputLimit stream.length)) := by
    rw [h.bytes, Ring.drop_rtake _ (le_max_right _ _)]
  simp only [Output.read, bailIf, if_neg hgo, bind, Except.bind, hstart, hcursor, hdata]
  generalize hat : max n (Ring.first outputLimit stream.length) = offset
  have hoffset : offset ≤ stream.length := by omega
  have hlength : ((stream.drop offset).take readLimit).length =
      min readLimit (stream.length - offset) := by simp
  refine ⟨_, _, _, _, offset + ((stream.drop offset).take readLimit).length, rfl, ?_⟩
  constructor
  · refine ⟨?_, by omega⟩
    rw [F64.ofNat, F64.round_eq (by omega)]
  · rw [hat, List.drop_take, Nat.add_sub_cancel_left, hlength, List.take_eq_take_iff]
    simp
  · rw [hat]
  · rw [hlength]
    exact Nat.min_le_left _ _
  · rw [decide_eq_true_eq, h.stop]
    omega
  · rw [decide_eq_true_eq, h.stop]
    omega
  · rw [decide_eq_true_eq]

/-- Every other cursor is rejected. -/
theorem Output.Keeps.read_error (h : o.Keeps stream) (hlen : stream.length < 2 ^ 53) {after : F64}
    (hno : ∀ n, ¬Cursor stream after n) : o.read after = .error "无效的终端输出游标" := by
  rcases after with _ | negative | after
  · rfl
  · rfl
  · have hstop : after < 0 ∨ after.den ≠ 1 ∨ (F64.round o.stop : ℚ) < after := by
      by_contra hgo
      obtain ⟨n, rfl, hn⟩ := (h.cursor_iff hlen after).1 hgo
      exact hno n ⟨rfl, hn⟩
    exact bailIf_error hstop

/-- What a client has that follows the cursors: the stream up to its cursor, unless it was told of a
loss. -/
structure Reader.Follows (stream : List UInt8) (r : Reader) : Prop where
  output : r.output.Keeps stream
  cursor : ∃ n, Cursor stream r.cursor n ∧ (r.lost = false → r.data = stream.take n)

theorem Reader.Follows.append {r : Reader} (h : r.Follows stream) (bytes : List UInt8) :
    (r.step (.append bytes)).Follows (stream ++ bytes) := by
  obtain ⟨n, ⟨hcursor, hn⟩, hdata⟩ := h.cursor
  have hstep : r.step (.append bytes) = { r with output := r.output.append bytes } := rfl
  rw [hstep]
  refine ⟨h.output.append bytes, n, ⟨hcursor, ?_⟩, fun hlost => ?_⟩
  · rw [List.length_append]
    omega
  · rw [List.take_append_of_le_length hn]
    exact hdata hlost

theorem Reader.Follows.read {r : Reader} (h : r.Follows stream) (hlen : stream.length < 2 ^ 53) :
    (r.step .read).Follows stream := by
  obtain ⟨n, ⟨hcursor, hn⟩, hdata⟩ := h.cursor
  obtain ⟨data, next, more, lost, m, hread, hat⟩ := h.output.read_ok hlen hn
  unfold step
  simp only [hcursor, hread]
  refine ⟨h.output, m, hat.cursor, fun hlost => ?_⟩
  have hlost : r.lost = false ∧ lost = false := by simpa using hlost
  have hkept : max n (Ring.first outputLimit stream.length) = n := by
    refine max_eq_left (Nat.le_of_not_lt fun hlt => ?_)
    rw [hat.truncated.2 hlt] at hlost
    cases hlost.2
  have hstretch := hat.stretch
  have hreaches := hat.reaches
  rw [hkept] at hstretch hreaches
  have hfront : stream.take n = (stream.take m).take n := by
    rw [List.take_take, Nat.min_eq_left (by omega)]
  change r.data ++ data = stream.take m
  rw [hdata hlost.1, hstretch, hfront, List.take_append_drop]

theorem follows_run (ops : List Op) (hlen : (Reader.written ops).length < 2 ^ 53) :
    (Runs.run Reader.step {} ops).Follows (Reader.written ops) := by
  refine Runs.run_induction (s := ({} : Reader)) (P := fun ops r =>
    (Reader.written ops).length < 2 ^ 53 → r.Follows (Reader.written ops)) ?_ ?_ ops hlen
  · exact fun _ => ⟨⟨(List.rtake_nil _).symm, rfl⟩, 0, ⟨rfl, Nat.le_refl 0⟩, fun _ => rfl⟩
  · intro ops op ih hlen
    have hwritten : Reader.written (ops ++ [op]) = Reader.written ops ++ Reader.written [op] :=
      List.flatMap_append
    rw [hwritten] at hlen ⊢
    have ih := ih (by rw [List.length_append] at hlen; omega)
    cases op with
    | append bytes =>
      rw [show Reader.written [.append bytes] = bytes from List.append_nil bytes]
      exact ih.append bytes
    | read =>
      rw [show Reader.written [.read] = [] from rfl, List.append_nil] at hlen ⊢
      exact ih.read hlen

/-- After any writes and reads, a read at a cursor gives the stream from there on, as far as the
ring has it, and no other cursor is taken. A client that follows the cursors has the stream up to
its own one, unless it was told of a loss. -/
theorem output_ring (ops : List Op) (hlen : (Reader.written ops).length < 2 ^ 53) :
    (∀ n ≤ (Reader.written ops).length, ∃ data next more lost m,
      (Runs.run Reader.step {} ops).output.read (.finite n) = .ok (data, next, more, lost) ∧
        ReadAt (Reader.written ops) n data next more lost m) ∧
    (∀ after, (∀ n, ¬Cursor (Reader.written ops) after n) →
      (Runs.run Reader.step {} ops).output.read after = .error "无效的终端输出游标") ∧
    ∃ n, Cursor (Reader.written ops) (Runs.run Reader.step {} ops).cursor n ∧
      ((Runs.run Reader.step {} ops).lost = false →
        (Runs.run Reader.step {} ops).data = (Reader.written ops).take n) := by
  have h := follows_run ops hlen
  exact ⟨fun _ hn => h.output.read_ok hlen hn, fun _ hno => h.output.read_error hlen hno, h.cursor⟩

theorem output_ring_two : ∃ data next more lost m,
    (Runs.run Reader.step {} [.append [1], .read, .append [2]]).output.read (.finite 1) =
      .ok (data, next, more, lost) ∧ ReadAt [1, 2] 1 data next more lost m :=
  (output_ring [.append [1], .read, .append [2]] (by decide)).1 1 (by decide)

end Terminal

end LatteWork
