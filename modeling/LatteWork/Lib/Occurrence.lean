import Mathlib.Data.List.Basic
import Mathlib.Data.List.Infix
import Mathlib.Data.Nat.Notation

/-!
# Occurrences across a cut

A word occurs in two texts put together when it occurs in one of them, or when it begins in the
first and ends in the second. What the first text can still contribute is told by its ends.
-/

namespace Occurrence

variable {α : Type*} {p a b m w : List α}

/-- An occurrence of `p` begins at the end of `a` and ends at the front of `b`. -/
def Straddles (p a b : List α) : Prop :=
  ∃ k < p.length, 0 < k ∧ p.take k <:+ a ∧ p.drop k <+: b

instance [DecidableEq α] (p a b : List α) : Decidable (Straddles p a b) :=
  inferInstanceAs (Decidable (∃ k < p.length, 0 < k ∧ p.take k <:+ a ∧ p.drop k <+: b))

theorem Straddles.of_append {u v : List α} (hu : u ≠ []) (hv : v ≠ []) (ha : u <:+ a)
    (hb : v <+: b) : Straddles (u ++ v) a b := by
  have hlen : 0 < v.length := List.length_pos_iff.2 hv
  exact ⟨u.length, by simp only [List.length_append]; omega, List.length_pos_iff.2 hu,
    by simpa using ha, by simpa using hb⟩

/-- The two parts of an occurrence across a cut. -/
theorem Straddles.parts (h : Straddles p a b) :
    ∃ u v, u ≠ [] ∧ v ≠ [] ∧ p = u ++ v ∧ u <:+ a ∧ v <+: b := by
  obtain ⟨k, hlt, hpos, ha, hb⟩ := h
  refine ⟨p.take k, p.drop k, ?_, ?_, (List.take_append_drop k p).symm, ha, hb⟩
  · rw [← List.length_pos_iff, List.length_take]
    omega
  · rw [← List.length_pos_iff, List.length_drop]
    omega

theorem not_straddles_nil : ¬Straddles p [] b := by
  intro h
  obtain ⟨u, v, hu, -, -, ha, -⟩ := h.parts
  exact hu (List.suffix_nil.1 ha)

theorem Straddles.within (h : Straddles p a b) : p <:+: a ++ b := by
  obtain ⟨u, v, -, -, rfl, ⟨x, rfl⟩, ⟨y, rfl⟩⟩ := h.parts
  exact ⟨x, y, by simp⟩

/-- Where a word can occur in two texts put together. -/
theorem infix_append : p <:+: a ++ b ↔ p <:+: a ∨ p <:+: b ∨ Straddles p a b := by
  constructor
  · rintro ⟨x, y, h⟩
    rw [List.append_assoc] at h
    obtain ⟨z, rfl, hz⟩ | ⟨z, rfl, hz⟩ := List.append_eq_append_iff.1 h
    · -- `p` begins in `a`
      obtain ⟨z', rfl, hz'⟩ | ⟨z', rfl, hz'⟩ := List.append_eq_append_iff.1 hz
      · exact .inl ⟨x, z', by simp⟩
      · rcases z.eq_nil_or_concat with rfl | ⟨_, _, hz0⟩
        · exact .inr (.inl ⟨[], y, by simpa using hz'.symm⟩)
        rcases z'.eq_nil_or_concat with rfl | ⟨_, _, hz0'⟩
        · exact .inl ⟨x, [], by simp⟩
        · exact .inr (.inr (.of_append (by simp [hz0]) (by simp [hz0']) ⟨x, rfl⟩ ⟨y, hz'.symm⟩))
    · exact .inr (.inl ⟨z, y, by rw [hz, List.append_assoc]⟩)
  · rintro (h | h | h)
    · exact h.trans (List.infix_append_left ..)
    · exact h.trans (List.infix_append_right ..)
    · exact h.within

/-- The ends of `a` that hold nothing of `m` are ends of `w`. -/
def Tails (m a w : List α) : Prop := ∀ u : List α, u.Disjoint m → u <:+ a → u <:+ w

theorem Tails.refl (m a : List α) : Tails m a a := fun _ _ h => h

theorem Tails.concat {c : α} (h : Tails m a w) : Tails m (a ++ [c]) (w ++ [c]) := by
  intro u hu hs
  rcases u.eq_nil_or_concat with rfl | ⟨u, d, rfl⟩
  · exact List.nil_suffix
  · obtain ⟨x, hx⟩ := hs
    rw [List.concat_eq_append, ← List.append_assoc] at hx
    obtain ⟨rfl, hd⟩ := List.append_inj' hx rfl
    obtain ⟨y, rfl⟩ := h u (fun c hc => hu (by simp [hc])) ⟨x, rfl⟩
    exact ⟨y, by simp only [List.concat_eq_append, ← List.append_assoc, hd]⟩

/-- Nothing without `m` ends a text that ends with it. -/
theorem Tails.marker (hm : m ≠ []) (a w : List α) : Tails m (a ++ m) w := by
  intro u hu hs
  rcases u.eq_nil_or_concat with rfl | ⟨u, c, rfl⟩
  · exact List.nil_suffix
  obtain ⟨m, d, rfl⟩ := m.eq_nil_or_concat.resolve_left hm
  obtain ⟨x, hx⟩ := hs
  simp only [List.concat_eq_append, ← List.append_assoc] at hx hu
  obtain ⟨-, hd⟩ := List.append_inj' hx rfl
  obtain rfl : c = d := by simpa using hd
  exact absurd (hu (a := c) (by simp) (by simp)) id

/-- A word without `m` that crosses from `a` crosses from `w`. -/
theorem Tails.straddles (h : Tails m a w) (hp : p.Disjoint m) (hs : Straddles p a b) :
    Straddles p w b := by
  obtain ⟨k, hlt, hpos, ha, hb⟩ := hs
  exact ⟨k, hlt, hpos, h _ (fun c hc => hp (List.mem_of_mem_take hc)) ha, hb⟩

/-- A word without `m` does not cross into it. -/
theorem not_straddles_marker (hp : p.Disjoint m) : ¬Straddles p a m := by
  intro h
  obtain ⟨u, v, -, hv, rfl, -, hb⟩ := h.parts
  obtain ⟨c, hc⟩ := List.exists_mem_of_ne_nil v hv
  exact hp (List.mem_append_right u hc) (hb.subset hc)

theorem not_infix_of_disjoint (hne : p ≠ []) (hp : p.Disjoint m) : ¬p <:+: m := by
  intro h
  obtain ⟨c, hc⟩ := List.exists_mem_of_ne_nil p hne
  exact hp hc (h.subset hc)

end Occurrence
