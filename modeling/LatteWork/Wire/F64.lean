import Mathlib.Data.Rat.Lemmas
import Mathlib.Data.Nat.Log
import Mathlib.Tactic.NormNum

/-!
# Floating-point numbers

A double keeps 53 binary digits. Whole numbers below `2 ^ 53` are exact, and so are the sums of
fractions whose numerators stay below it.
-/

namespace LatteWork

/-- A value of `f64`. -/
inductive F64 where
  | nan
  | infinite (negative : Bool)
  | finite (value : ℚ)
  deriving DecidableEq, Inhabited

namespace F64

/-- `n as f64`: the nearest number of 53 digits, the even one of two. -/
def round (n : ℕ) : ℕ :=
  let unit := 2 ^ (n.log2 - 52)
  let digits := n / unit
  let rest := n % unit
  if unit < 2 * rest ∨ (2 * rest = unit ∧ digits % 2 = 1) then (digits + 1) * unit
  else digits * unit

def ofNat (n : ℕ) : F64 := finite (round n)

/-- The sum of two finite numbers, below the overflow. Each is a whole number over a power of two, and
so is the sum: its numerator is rounded. -/
def add (a b : ℚ) : ℚ := mkRat ((a + b).num.sign * round (a + b).num.natAbs) (a + b).den

theorem round_eq {n : ℕ} (h : n < 2 ^ 53) : round n = n := by
  have hlog : n.log2 - 52 = 0 := by
    rcases Nat.eq_zero_or_pos n with rfl | hpos
    · rfl
    · have := (Nat.log2_lt hpos.ne').2 h
      omega
  unfold round
  simp [hlog, Nat.mod_one]

theorem add_eq {a b : ℚ} (h : (a + b).num.natAbs < 2 ^ 53) : add a b = a + b := by
  unfold add
  rw [round_eq h, Int.sign_mul_natAbs, Rat.mkRat_self]

/-- Parts of a fixed fraction add up exactly while there are fewer than `2 ^ 53` of them. -/
theorem add_parts {m k d : ℕ} (hd : d ≠ 0) (h : m + k < 2 ^ 53) :
    add (m / d) (k / d) = ((m + k : ℕ) : ℚ) / d := by
  have hsum : (m : ℚ) / d + k / d = ((m + k : ℕ) : ℚ) / d := by
    push_cast
    exact (add_div _ _ _).symm
  rw [add_eq, hsum]
  have hdvd : (((m + k : ℕ) : ℚ) / d).num ∣ ((m + k : ℕ) : ℤ) := by
    have := Rat.num_dvd ((m + k : ℕ) : ℤ) (show (d : ℤ) ≠ 0 by exact_mod_cast hd)
    rwa [Rat.divInt_eq_div] at this
  rw [hsum]
  rcases Nat.eq_zero_or_pos (m + k) with hzero | hpos
  · rw [hzero]
    simp
  · have hle := Nat.le_of_dvd hpos (Int.natCast_dvd_natCast.1 (Int.natAbs_dvd.2 hdvd))
    omega

end F64

end LatteWork
