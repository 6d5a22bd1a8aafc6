import Mathlib.Data.List.Sort
import Mathlib.Data.Nat.Notation
import Mathlib.Order.Defs.LinearOrder

/-!
# Merging parts of an ordered log

Entries with distinct keys, in order of their keys, of which a reader collects parts. Merging two
parts keeps what either has, once and in order, so any way of merging parts that together have every
entry gives the whole.
-/

namespace KeyedMerge

variable {α κ : Type*} [LinearOrder κ] (key : α → κ)

/-- What is new goes in, by its key. -/
def merge (existing incoming : List α) : List α :=
  (existing ++ incoming.filter fun a => key a ∉ existing.map key).insertionSort (key · ≤ key ·)

/-- A way of merging parts. -/
inductive Merging (α : Type*) where
  | nothing
  | part (part : List α)
  | merge (existing incoming : Merging α)

namespace Merging

/-- The parts that are merged. -/
def parts : Merging α → List (List α)
  | nothing => []
  | part p => [p]
  | merge a b => a.parts ++ b.parts

/-- What a way of merging gives. -/
def entries : Merging α → List α
  | nothing => []
  | part p => p
  | merge a b => KeyedMerge.merge key a.entries b.entries

end Merging

variable {key} {whole a b : List α}

/-- In an ordered log an entry is known by its key. -/
theorem eq_of_key (h : whole.Pairwise (key · < key ·)) {x y : α} (hx : x ∈ whole) (hy : y ∈ whole)
    (hkey : key x = key y) : x = y :=
  List.inj_on_of_nodup_map (List.pairwise_map.2 (h.imp fun hab => hab.ne)) hx hy hkey

theorem sublist_of_subset {part : List α} (h : whole.Pairwise (key · < key ·))
    (hpart : part.Pairwise (key · < key ·)) (hsub : part ⊆ whole) : part.Sublist whole := by
  have : Std.Antisymm fun a b : α => key a < key b := ⟨fun _ _ hab hba => absurd hab hba.asymm⟩
  have hnodup : part.Nodup := hpart.imp fun hab heq => hab.ne (congrArg key heq)
  exact List.sublist_of_subperm_of_pairwise (List.subperm_of_subset hnodup hsub) hpart h

theorem mem_merge (h : whole.Pairwise (key · < key ·)) (ha : a ⊆ whole) (hb : b ⊆ whole) {x : α} :
    x ∈ merge key a b ↔ x ∈ a ∨ x ∈ b := by
  rw [merge, (List.perm_insertionSort _ _).mem_iff, List.mem_append, List.mem_filter]
  refine ⟨fun hx => hx.imp_right And.left, fun hx => ?_⟩
  by_cases hxa : x ∈ a
  · exact .inl hxa
  have hxb := hx.resolve_left hxa
  refine .inr ⟨hxb, decide_eq_true fun hkey => hxa ?_⟩
  obtain ⟨y, hy, hyx⟩ := List.mem_map.1 hkey
  rwa [← eq_of_key h (ha hy) (hb hxb) hyx]

theorem merge_ordered (ha : a.Pairwise (key · < key ·)) (hb : b.Pairwise (key · < key ·)) :
    (merge key a b).Pairwise (key · < key ·) := by
  have : Std.Total fun x y : α => key x ≤ key y := ⟨fun x y => le_total _ _⟩
  have : IsTrans α fun x y => key x ≤ key y := ⟨fun _ _ _ hxy hyz => hxy.trans hyz⟩
  have hne : (a ++ b.filter fun x => key x ∉ a.map key).Pairwise (key · ≠ key ·) := by
    rw [List.pairwise_append]
    refine ⟨ha.imp fun hxy => hxy.ne, (hb.filter _).imp fun hxy => hxy.ne, fun x hx y hy heq => ?_⟩
    exact of_decide_eq_true (List.mem_filter.1 hy).2 (List.mem_map.2 ⟨x, hx, heq⟩)
  have hsorted := List.pairwise_insertionSort (fun x y : α => key x ≤ key y)
    (a ++ b.filter fun x => key x ∉ a.map key)
  have hdistinct : (merge key a b).Pairwise (key · ≠ key ·) :=
    (List.perm_insertionSort _ _).symm.pairwise hne Ne.symm
  exact hsorted.imp₂ (fun _ _ hle hne => lt_of_le_of_ne hle hne) hdistinct

/-- Merging two parts gives a part. -/
theorem merge_part (h : whole.Pairwise (key · < key ·)) (ha : a.Sublist whole)
    (hb : b.Sublist whole) : (merge key a b).Sublist whole :=
  sublist_of_subset h (merge_ordered (h.sublist ha) (h.sublist hb)) fun _ hx =>
    ((mem_merge h ha.subset hb.subset).1 hx).elim (ha.subset ·) (hb.subset ·)

theorem Merging.entries_part (h : whole.Pairwise (key · < key ·)) :
    ∀ m : Merging α, (∀ p ∈ m.parts, p.Sublist whole) →
      (m.entries key).Sublist whole ∧ ∀ x, x ∈ m.entries key ↔ ∃ p ∈ m.parts, x ∈ p
  | .nothing, _ => ⟨List.nil_sublist _, by simp [entries, parts]⟩
  | .part p, hp => ⟨hp p (by simp [parts]), by simp [entries, parts]⟩
  | .merge a b, hp => by
    obtain ⟨ha, hma⟩ := entries_part h a fun p hpa => hp p (by simp [parts, hpa])
    obtain ⟨hb, hmb⟩ := entries_part h b fun p hpb => hp p (by simp [parts, hpb])
    refine ⟨merge_part h ha hb, fun x => ?_⟩
    rw [entries, mem_merge h ha.subset hb.subset, hma, hmb]
    simp only [parts, List.mem_append, or_and_right, exists_or]

/-- Merging parts that together have every entry gives the whole, in whatever order and however
often they are merged. -/
theorem Merging.entries_eq (h : whole.Pairwise (key · < key ·)) (m : Merging α)
    (hparts : ∀ p ∈ m.parts, p.Sublist whole) (hall : ∀ x ∈ whole, ∃ p ∈ m.parts, x ∈ p) :
    m.entries key = whole := by
  obtain ⟨hsub, hmem⟩ := m.entries_part h hparts
  exact hsub.antisymm (sublist_of_subset (h.sublist hsub) h fun x hx => (hmem x).2 (hall x hx))

end KeyedMerge
