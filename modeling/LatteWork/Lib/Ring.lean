import Mathlib.Data.List.DropRight
import Mathlib.Data.Nat.Notation

/-!
# The end of a growing list

A bounded ring keeps the last entries of what was written. A reader who knows how much was written
reads it by absolute positions. A queue that drops its front until it is small enough keeps the
longest end that fits.
-/

namespace Ring

variable {α : Type*} {n : ℕ}

/-- The position of the first entry that is kept of `length` ones. -/
def first (n length : ℕ) : ℕ := length - n

/-- Keeping the end twice is keeping it once: what was dropped before stays dropped. -/
theorem rtake_append (written more : List α) :
    (written.rtake n ++ more).rtake n = (written ++ more).rtake n := by
  unfold List.rtake
  have hlength : (written.drop (written.length - n) ++ more).length - n =
      (written ++ more).length - n - (written.length - n) := by
    simp only [List.length_append, List.length_drop]
    omega
  have hle : written.length - n ≤ (written ++ more).length - n := by
    rw [List.length_append]
    omega
  rw [hlength, ← List.drop_append_of_le_length (Nat.sub_le _ _), List.drop_drop,
    Nat.add_sub_cancel' hle]

theorem length_rtake (written : List α) : (written.rtake n).length = min written.length n := by
  rw [List.rtake, List.length_drop]
  omega

/-- The position of the first entry kept, from the ring's length. -/
theorem first_eq (written : List α) :
    written.length - (written.rtake n).length = first n written.length := by
  rw [length_rtake, first]
  omega

/-- Skipping to a position of the ring is skipping to that position of what was written. -/
theorem drop_rtake (written : List α) {offset : ℕ} (h : first n written.length ≤ offset) :
    (written.rtake n).drop (offset - first n written.length) = written.drop offset := by
  rw [List.rtake, List.drop_drop, ← first, Nat.add_sub_cancel' h]

/-! ## The longest end that fits -/

section Fits

variable (fits : List α → Prop) [DecidablePred fits]

/-- The longest end of a list that fits. -/
def lastFit : List α → List α
  | [] => []
  | a :: l => if fits (a :: l) then a :: l else lastFit l

variable {fits} {l more : List α}

theorem lastFit_eq_self (h : fits l) : lastFit fits l = l := by
  rcases l with _ | ⟨a, l⟩
  · rfl
  · exact if_pos h

theorem lastFit_suffix (l : List α) : lastFit fits l <:+ l := by
  induction l with
  | nil => exact List.suffix_rfl
  | cons a l ih =>
    unfold lastFit
    split
    · exact List.suffix_rfl
    · exact ih.trans (List.suffix_cons a l)

theorem fits_lastFit (hnil : fits []) (l : List α) : fits (lastFit fits l) := by
  induction l with
  | nil => exact hnil
  | cons a l ih =>
    unfold lastFit
    split
    · assumption
    · exact ih

/-- What was dropped would not fit with more behind it either. -/
theorem lastFit_append (hmore : ∀ l more, fits (l ++ more) → fits l) (l more : List α) :
    lastFit fits (lastFit fits l ++ more) = lastFit fits (l ++ more) := by
  induction l with
  | nil => rfl
  | cons a l ih =>
    by_cases h : fits (a :: l)
    · rw [lastFit_eq_self h]
    · have hlong : ¬fits (a :: (l ++ more)) := fun hl => h (hmore (a :: l) more hl)
      rw [lastFit, if_neg h, ih, List.cons_append, lastFit, if_neg hlong]

end Fits

end Ring
