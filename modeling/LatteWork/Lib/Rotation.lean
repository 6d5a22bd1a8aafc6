import Mathlib.Data.List.Basic
import Mathlib.Data.List.Nodup
import Mathlib.Data.List.Perm.Subperm
import Mathlib.Data.Nat.Notation

/-!
# Serving the longest waiting first

Each round serves some of the items, those that were served longest ago or never, and stamps them
with its time. Items that wait are served before any that had their turn, so that as many rounds
as it takes to serve each of them once do.
-/

namespace Rotation

variable {α : Type}

/-- The order of the rounds: what was never served comes first. -/
def earlier : Option ℕ → Option ℕ → Bool
  | none, _ => true
  | some _, none => false
  | some a, some b => a ≤ b

theorem earlier_trans : ∀ a b c : Option ℕ, earlier a b = true → earlier b c = true →
    earlier a c = true
  | none, _, _, _, _ => rfl
  | some _, none, _, h, _ => by cases h
  | some _, some _, none, _, h => by cases h
  | some _, some _, some _, h, h' =>
    decide_eq_true (Nat.le_trans (of_decide_eq_true h) (of_decide_eq_true h'))

theorem earlier_total : ∀ a b : Option ℕ, (earlier a b || earlier b a) = true
  | none, _ => rfl
  | some _, none => rfl
  | some a, some b => by simpa [earlier] using Nat.le_total a b

/-- Not served from some time on. -/
def waits (t₀ : ℕ) : Option ℕ → Bool
  | none => true
  | some t => t < t₀

theorem waits_of_earlier {t₀ : ℕ} : ∀ {a b : Option ℕ}, earlier a b = true → waits t₀ b = true →
    waits t₀ a = true
  | none, _, _, _ => rfl
  | some _, none, h, _ => by cases h
  | some _, some _, h, h' =>
    decide_eq_true (Nat.lt_of_le_of_lt (of_decide_eq_true h) (of_decide_eq_true h'))

/-- A round serves the first `k` of the items, in the order of when they were served last. -/
structure Round (k : ℕ) (items : List α) (last : α → Option ℕ) (t : ℕ) (batch : List α)
    (last' : α → Option ℕ) : Prop where
  first : ∃ l : List α, l.Perm items ∧ l.Pairwise (fun a b => earlier (last a) (last b) = true) ∧
    batch = l.take k
  served : ∀ a ∈ batch, last' a = some t
  others : ∀ a ∈ items, a ∉ batch → last' a = last a

/-- Rounds, one after the other. -/
inductive Rounds (k : ℕ) (items : List α) :
    (α → Option ℕ) → List (ℕ × List α) → (α → Option ℕ) → Prop
  | nil (last) : Rounds k items last [] last
  | cons {last t batch last' rest last''} : Round k items last t batch last' →
      Rounds k items last' rest last'' → Rounds k items last ((t, batch) :: rest) last''

variable {k t₀ : ℕ} {items : List α} {last last' : α → Option ℕ} {rounds : List (ℕ × List α)}

/-- In a sorted list the waiting items are in front. -/
theorem filter_waits (t₀ : ℕ) : ∀ {l : List α},
    l.Pairwise (fun a b => earlier (last a) (last b) = true) →
    l.filter (fun a => waits t₀ (last a)) <+: l
  | [], _ => List.prefix_rfl
  | a :: l, h => by
    obtain ⟨ha, hl⟩ := List.pairwise_cons.1 h
    by_cases hw : waits t₀ (last a) = true
    · rw [List.filter_cons, if_pos hw]
      exact List.cons_prefix_cons.2 ⟨rfl, filter_waits t₀ hl⟩
    · have hnone : l.filter (fun b => waits t₀ (last b)) = [] := by
        rw [List.filter_eq_nil_iff]
        exact fun b hb hwb => hw (waits_of_earlier (ha b hb) hwb)
      rw [List.filter_cons, if_neg hw, hnone]
      exact List.nil_prefix

/-- A round leaves so many items fewer waiting. -/
theorem Round.fewer {t : ℕ} {batch : List α} (h : Round k items last t batch last')
    (hnodup : items.Nodup) (ht : t₀ ≤ t) :
    (items.filter fun a => waits t₀ (last' a)).length ≤
      (items.filter fun a => waits t₀ (last a)).length - k := by
  obtain ⟨l, hperm, hsorted, rfl⟩ := h.first
  have hlength : (items.filter fun a => waits t₀ (last a)).length =
      (l.filter fun a => waits t₀ (last a)).length := (hperm.symm.filter _).length_eq
  rw [hlength, ← List.length_drop]
  refine (List.subperm_of_subset (hnodup.filter _) fun a ha => ?_).length_le
  obtain ⟨hitem, hwaits⟩ := List.mem_filter.1 ha
  have hbatch : a ∉ l.take k := by
    intro hmem
    rw [h.served a hmem] at hwaits
    exact absurd (of_decide_eq_true hwaits) (Nat.not_lt.2 ht)
  rw [h.others a hitem hbatch] at hwaits
  have hmem : a ∈ l.filter fun a => waits t₀ (last a) :=
    List.mem_filter.2 ⟨hperm.mem_iff.2 hitem, hwaits⟩
  rw [← List.take_append_drop k (l.filter _)] at hmem
  rcases List.mem_append.1 hmem with hfirst | hrest
  · -- the first `k` of the waiting items are among the first `k` of all
    obtain ⟨rest, hrest⟩ := filter_waits t₀ hsorted
    refine absurd ?_ hbatch
    rw [← hrest, List.take_append]
    exact List.mem_append_left _ hfirst
  · exact hrest

/-- As many rounds as it takes to serve each item once serve every item that waits. -/
theorem Rounds.serve (t₀ : ℕ) (hnodup : items.Nodup) : ∀ {rounds last},
    Rounds k items last rounds last' → (∀ r ∈ rounds, t₀ ≤ r.1) →
    (items.filter fun a => waits t₀ (last a)).length ≤ k * rounds.length →
    ∀ a ∈ items, waits t₀ (last a) = true → ∃ r ∈ rounds, a ∈ r.2
  | [], last, _, _, hfew, a, ha, hwaits => by
    have hmem : a ∈ items.filter fun a => waits t₀ (last a) := List.mem_filter.2 ⟨ha, hwaits⟩
    exact absurd (List.length_pos_of_mem hmem) (by simpa using hfew)
  | (t, batch) :: rounds, last, .cons hround hrest, hlater, hfew, a, ha, hwaits => by
    by_cases hbatch : a ∈ batch
    · exact ⟨(t, batch), List.mem_cons_self, hbatch⟩
    · have hless := hround.fewer hnodup (hlater _ List.mem_cons_self)
      rw [List.length_cons, Nat.mul_succ] at hfew
      have hstill : waits t₀ _ = true := (hround.others a ha hbatch) ▸ hwaits
      obtain ⟨r, hr, hmem⟩ := hrest.serve t₀ hnodup (fun r hr => hlater r (List.mem_cons_of_mem _ hr))
        (by omega) a ha hstill
      exact ⟨r, List.mem_cons_of_mem _ hr, hmem⟩

end Rotation
