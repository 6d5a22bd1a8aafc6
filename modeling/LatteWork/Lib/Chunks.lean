import Mathlib.Algebra.Order.Group.Nat
import Mathlib.Data.List.Basic
import Mathlib.Data.Nat.Notation

/-!
# A text in chunks

A text is read in chunks of one size, the last one shorter. The chunks of one text are its front
again, and the chunks of several texts are told apart in what they make together.
-/

namespace Chunks

variable {α : Type*}

/-- The chunk with this number. -/
def chunk (size : ℕ) (l : List α) (i : ℕ) : List α := (l.drop (i * size)).take size

/-- The first chunks, each of a text of its own. -/
def assemble (size : ℕ) (texts : ℕ → List α) (n : ℕ) : List α :=
  (List.range n).flatMap fun i => chunk size (texts i) i

variable {size n : ℕ} {l : List α} {texts : ℕ → List α}

@[simp]
theorem assemble_zero : assemble size texts 0 = [] := rfl

theorem assemble_succ : assemble size texts (n + 1) = assemble size texts n ++ chunk size (texts n) n := by
  simp [assemble, List.range_succ]

theorem length_chunk (i : ℕ) : (chunk size l i).length = min size (l.length - i * size) := by
  simp [chunk]

theorem getElem?_chunk {i j : ℕ} (h : j < size) : (chunk size l i)[j]? = l[i * size + j]? := by
  rw [chunk, List.getElem?_take_of_lt h, List.getElem?_drop]

/-- A chunk that something follows is a whole one. -/
theorem length_chunk_of_lt {i : ℕ} (h : (i + 1) * size ≤ l.length) :
    (chunk size l i).length = size := by
  rw [length_chunk, Nat.min_eq_left]
  rw [Nat.add_mul, Nat.one_mul] at h
  omega

theorem chunk_take {i : ℕ} (h : (i + 1) * size ≤ n) : chunk size (l.take n) i = chunk size l i := by
  rw [Nat.add_mul, Nat.one_mul] at h
  rw [chunk, List.drop_take, List.take_take, Nat.min_eq_left (by omega)]
  rfl

/-- The chunks of one text are its front. -/
theorem assemble_const (size : ℕ) (l : List α) : ∀ n, assemble size (fun _ => l) n = l.take (n * size)
  | 0 => by simp
  | n + 1 => by
    rw [assemble_succ, assemble_const size l n, chunk, Nat.add_mul, Nat.one_mul, List.take_add]

theorem assemble_congr {other : ℕ → List α}
    (h : ∀ i < n, chunk size (texts i) i = chunk size (other i) i) :
    assemble size texts n = assemble size other n := by
  induction n with
  | zero => rfl
  | succ n ih =>
    rw [assemble_succ, assemble_succ, ih fun i hi => h i (Nat.lt_succ_of_lt hi),
      h n (Nat.lt_succ_self n)]

theorem length_assemble : ∀ {n : ℕ}, (∀ i < n, (i + 1) * size ≤ (texts i).length) →
    (assemble size texts n).length = n * size
  | 0, _ => by simp
  | n + 1, h => by
    rw [assemble_succ, List.length_append,
      length_assemble fun i hi => h i (Nat.lt_succ_of_lt hi),
      length_chunk_of_lt (h n (Nat.lt_succ_self n)), Nat.add_mul, Nat.one_mul]

/-- The chunks of what several texts make are those of the texts, if all but the last are whole. -/
theorem chunk_assemble : ∀ {n : ℕ}, (∀ i < n, (i + 1) * size ≤ (texts i).length) → ∀ i ≤ n,
    chunk size (assemble size texts (n + 1)) i = chunk size (texts i) i
  | 0, _, i, hi => by
    obtain rfl := Nat.le_zero.1 hi
    rw [assemble_succ, assemble_zero, List.nil_append]
    simp [chunk, List.take_take]
  | n + 1, h, i, hi => by
    have hlength := length_assemble h
    rw [assemble_succ]
    rcases Nat.lt_or_eq_of_le hi with hlt | rfl
    · have hle : i * size + size ≤ (n + 1) * size := by
        have := Nat.mul_le_mul_right size (Nat.succ_le_of_lt hlt)
        rwa [Nat.succ_mul] at this
      have hfront : chunk size (assemble size texts (n + 1) ++ chunk size (texts (n + 1)) (n + 1)) i =
          chunk size (assemble size texts (n + 1)) i := by
        rw [chunk, List.drop_append_of_le_length (by omega),
          List.take_append_of_le_length (by rw [List.length_drop]; omega)]
        rfl
      rw [hfront]
      exact chunk_assemble (fun i hi => h i (Nat.lt_succ_of_lt hi)) i (Nat.le_of_lt_succ hlt)
    · rw [chunk, ← hlength, List.drop_left, List.take_of_length_le]
      rw [length_chunk]
      exact Nat.min_le_left _ _

end Chunks
