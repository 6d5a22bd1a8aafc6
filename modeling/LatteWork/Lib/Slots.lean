import Mathlib.Data.List.Basic
import Mathlib.Data.List.Nodup

/-!
# Slots of a list

The elements of a list that meet a condition stand in its slots. The slots are filled again from a
supply, in its order, and the other elements stay where they are. What the supply has left comes
behind the list.
-/

namespace Slots

variable {α : Type*} (p : α → Bool) {l xs front rest : List α}

/-- Fill the slots of a list. A supply that runs out gives nothing. -/
def refill : List α → List α → Option (List α × List α)
  | [], xs => some ([], xs)
  | a :: l, xs =>
    if p a then
      match xs with
      | [] => none
      | x :: xs => (refill l xs).map fun filled => (x :: filled.1, filled.2)
    else (refill l xs).map fun filled => (a :: filled.1, filled.2)

variable {p}

/-- A supply for every slot does not run out. -/
theorem refill_isSome : ∀ {l xs : List α}, l.countP p ≤ xs.length → (refill p l xs).isSome
  | [], _, _ => rfl
  | a :: l, xs, h => by
    unfold refill
    rw [List.countP_cons] at h
    split_ifs with hp
    · rw [if_pos hp] at h
      cases xs with
      | nil => simp at h
      | cons x xs =>
        have hlen : l.countP p ≤ xs.length := by simpa using h
        simpa using refill_isSome hlen
    · rw [if_neg hp] at h
      simpa using refill_isSome h

/-- The elements that stand in no slot keep their places. -/
theorem refill_keeps : ∀ {l xs front rest : List α}, refill p l xs = some (front, rest) →
    ∀ {i : ℕ} {a : α}, l[i]? = some a → p a = false → front[i]? = some a
  | [], _, _, _, _, i, a, hi, _ => by simp at hi
  | b :: l, xs, front, rest, h, i, a, hi, ha => by
    unfold refill at h
    split_ifs at h with hb
    · cases xs with
      | nil => cases h
      | cons x xs =>
        obtain ⟨⟨front', rest'⟩, hfill, heq⟩ := Option.map_eq_some_iff.1 h
        obtain ⟨rfl, rfl⟩ := Prod.mk.inj heq
        cases i with
        | zero =>
          obtain rfl : b = a := by simpa using hi
          rw [ha] at hb
          cases hb
        | succ i => simpa using refill_keeps hfill (by simpa using hi) ha
    · obtain ⟨⟨front', rest'⟩, hfill, heq⟩ := Option.map_eq_some_iff.1 h
      obtain ⟨rfl, rfl⟩ := Prod.mk.inj heq
      cases i with
      | zero => simpa using hi
      | succ i => simpa using refill_keeps hfill (by simpa using hi) ha

/-- What stands in no slot is as before. -/
theorem filter_not_refill : ∀ {l xs front rest : List α}, refill p l xs = some (front, rest) →
    (∀ x ∈ xs, p x = true) → (front ++ rest).filter (fun a => !p a) = l.filter fun a => !p a
  | [], xs, front, rest, h, hxs => by
    obtain ⟨rfl, rfl⟩ := Prod.mk.inj (Option.some.inj h)
    simpa using hxs
  | a :: l, xs, front, rest, h, hxs => by
    unfold refill at h
    split_ifs at h with ha
    · cases xs with
      | nil => cases h
      | cons x xs =>
        obtain ⟨⟨front', rest'⟩, hfill, heq⟩ := Option.map_eq_some_iff.1 h
        obtain ⟨rfl, rfl⟩ := Prod.mk.inj heq
        have hx : p x = true := hxs x List.mem_cons_self
        have ih := filter_not_refill hfill fun y hy => hxs y (List.mem_cons_of_mem x hy)
        simpa [hx, ha] using ih
    · obtain ⟨⟨front', rest'⟩, hfill, heq⟩ := Option.map_eq_some_iff.1 h
      obtain ⟨rfl, rfl⟩ := Prod.mk.inj heq
      have ih := filter_not_refill hfill hxs
      simpa [ha] using ih

/-- What stands in the slots, and behind the list, is the supply. -/
theorem filter_refill : ∀ {l xs front rest : List α}, refill p l xs = some (front, rest) →
    (∀ x ∈ xs, p x = true) → (front ++ rest).filter p = xs
  | [], xs, front, rest, h, hxs => by
    obtain ⟨rfl, rfl⟩ := Prod.mk.inj (Option.some.inj h)
    simpa using hxs
  | a :: l, xs, front, rest, h, hxs => by
    unfold refill at h
    split_ifs at h with ha
    · cases xs with
      | nil => cases h
      | cons x xs =>
        obtain ⟨⟨front', rest'⟩, hfill, heq⟩ := Option.map_eq_some_iff.1 h
        obtain ⟨rfl, rfl⟩ := Prod.mk.inj heq
        have hx : p x = true := hxs x List.mem_cons_self
        have ih := filter_refill hfill fun y hy => hxs y (List.mem_cons_of_mem x hy)
        simpa [hx] using ih
    · obtain ⟨⟨front', rest'⟩, hfill, heq⟩ := Option.map_eq_some_iff.1 h
      obtain ⟨rfl, rfl⟩ := Prod.mk.inj heq
      have ih := filter_refill hfill hxs
      simpa [ha] using ih

/-- A list of distinct elements whose slots are filled with distinct ones has distinct elements. -/
theorem nodup_refill (h : refill p l xs = some (front, rest)) (hxs : ∀ x ∈ xs, p x = true)
    (hl : l.Nodup) (hnodup : xs.Nodup) : (front ++ rest).Nodup := by
  have hperm := List.filter_append_perm p (front ++ rest)
  rw [filter_refill h hxs, filter_not_refill h hxs] at hperm
  refine hperm.nodup (List.nodup_append.2 ⟨hnodup, hl.filter _, fun a ha b hb => ?_⟩)
  rintro rfl
  have := (List.mem_filter.1 hb).2
  simp [hxs a ha] at this

end Slots
