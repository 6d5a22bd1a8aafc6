import Mathlib.Algebra.GroupWithZero.Nat
import Mathlib.Data.List.Basic
import Mathlib.Data.List.Nodup

/-!
# Association lists

A map as a list of keyed values, at most one of each key in use: what putting in and taking out a
key does to the others.
-/

namespace Assoc

variable {κ β : Type*} [DecidableEq κ]

/-- The map without a key. -/
def drop (key : κ) (l : List (κ × β)) : List (κ × β) := l.filter (·.1 ≠ key)

/-- The map with a value under a key. -/
def put (key : κ) (v : β) (l : List (κ × β)) : List (κ × β) := drop key l ++ [(key, v)]

/-- The sum of a measure over the values. -/
def total (f : β → ℕ) (l : List (κ × β)) : ℕ := (l.map fun p => f p.2).sum

variable {key k : κ} {v w : β} {l : List (κ × β)}

@[simp]
theorem mem_drop {p : κ × β} : p ∈ drop key l ↔ p ∈ l ∧ p.1 ≠ key := by
  simp [drop]

@[simp]
theorem mem_put {p : κ × β} : p ∈ put key v l ↔ (p ∈ l ∧ p.1 ≠ key) ∨ p = (key, v) := by
  simp [put]

@[simp]
theorem drop_nil : drop key ([] : List (κ × β)) = [] := rfl

theorem drop_of_not_mem (h : ∀ p ∈ l, p.1 ≠ key) : drop key l = l := by
  rw [drop, List.filter_eq_self]
  simpa using h

theorem length_drop_le : (drop key l).length ≤ l.length := List.length_filter_le _ _

theorem keys_drop : (drop key l).map (·.1) = (l.map (·.1)).filter (· ≠ key) := by
  rw [drop, List.filter_map]
  rfl

theorem nodup_drop (h : (l.map (·.1)).Nodup) : ((drop key l).map (·.1)).Nodup := by
  rw [keys_drop]
  exact h.filter _

theorem nodup_put (h : (l.map (·.1)).Nodup) : ((put key v l).map (·.1)).Nodup := by
  rw [put, List.map_append, keys_drop, List.nodup_append]
  refine ⟨h.filter _, List.nodup_singleton _, fun a ha b hb => ?_⟩
  obtain rfl := List.mem_singleton.1 hb
  simpa using (List.mem_filter.1 ha).2

theorem mem_of_lookup (h : l.lookup k = some v) : (k, v) ∈ l := by
  induction l with
  | nil => cases h
  | cons p l ih =>
    rw [List.lookup_cons] at h
    by_cases hk : k = p.1
    · subst hk
      rw [beq_self_eq_true] at h
      obtain rfl : p.2 = v := Option.some.inj h
      exact List.mem_cons_self
    · rw [beq_eq_false_iff_ne.2 hk] at h
      exact List.mem_cons_of_mem _ (ih h)

theorem lookup_eq_some (h : (l.map (·.1)).Nodup) : l.lookup k = some v ↔ (k, v) ∈ l := by
  induction l with
  | nil => simp
  | cons p l ih =>
    obtain ⟨hp, hl⟩ := List.nodup_cons.1 h
    rw [List.lookup_cons]
    by_cases hk : k = p.1
    · subst hk
      simp only [beq_self_eq_true, Option.some.injEq, List.mem_cons, Prod.ext_iff, true_and]
      refine ⟨fun h => .inl h.symm, fun h => h.elim Eq.symm fun hmem => ?_⟩
      exact absurd (List.mem_map.2 ⟨_, hmem, rfl⟩) hp
    · have hbeq : (k == p.1) = false := by simpa using hk
      rw [hbeq]
      simp only [List.mem_cons, Prod.ext_iff, hk, false_and, false_or]
      exact ih hl

theorem lookup_drop : (drop key l).lookup k = if k = key then none else l.lookup k := by
  induction l with
  | nil => simp
  | cons p l ih =>
    rw [drop] at ih ⊢
    by_cases hp : p.1 = key
    · rw [List.filter_cons_of_neg (by simpa using hp), ih, List.lookup_cons]
      by_cases hk : k = key
      · simp [hk]
      · have hbeq : (k == p.1) = false := by simpa [hp] using hk
        rw [hbeq, if_neg hk]
    · rw [List.filter_cons_of_pos (by simpa using hp), List.lookup_cons, ih, List.lookup_cons]
      by_cases hk : k = p.1
      · simp [hk, hp]
      · have hbeq : (k == p.1) = false := by simpa using hk
        rw [hbeq]

theorem lookup_append {more : List (κ × β)} :
    (l ++ more).lookup k = (l.lookup k).or (more.lookup k) := by
  induction l with
  | nil => simp
  | cons p l ih =>
    rw [List.cons_append, List.lookup_cons, List.lookup_cons, ih]
    rcases k == p.1 <;> simp

theorem lookup_put : (put key v l).lookup k = if k = key then some v else l.lookup k := by
  rw [put, lookup_append, lookup_drop, List.lookup_cons]
  by_cases hk : k = key
  · simp [hk]
  · have hbeq : (k == key) = false := by simpa using hk
    simp [hk, hbeq]

theorem lookup_eq_none : l.lookup k = none ↔ ∀ p ∈ l, p.1 ≠ k := by
  induction l with
  | nil => simp
  | cons p l ih =>
    rw [List.lookup_cons]
    by_cases hk : k = p.1
    · simp [hk]
    · have hbeq : (k == p.1) = false := by simpa using hk
      rw [hbeq, ih]
      simp [Ne.symm hk]

/-- Putting in a key adds an entry only when the key is new. -/
theorem length_put_le :
    (put key v l).length ≤ l.length + if (l.lookup key).isNone then 1 else 0 := by
  rw [put, List.length_append, List.length_singleton]
  rcases hlook : l.lookup key with _ | w
  · exact Nat.add_le_add_right length_drop_le 1
  · have hlt : (drop key l).length < l.length :=
      List.length_filter_lt_length_iff_exists.2 ⟨(key, w), mem_of_lookup hlook, by simp⟩
    simp only [Option.isNone_some, Bool.false_eq_true, if_false]
    omega

omit [DecidableEq κ] in
theorem total_append {f : β → ℕ} {more : List (κ × β)} :
    total f (l ++ more) = total f l + total f more := by
  simp [total]

/-- What a key had is what the map has less without it. -/
theorem total_drop {f : β → ℕ} (h : (l.map (·.1)).Nodup) (hk : l.lookup key = some v) :
    total f (drop key l) + f v = total f l := by
  induction l with
  | nil => cases hk
  | cons p l ih =>
    obtain ⟨hp, hl⟩ := List.nodup_cons.1 h
    rw [List.lookup_cons] at hk
    by_cases hkey : key = p.1
    · subst hkey
      rw [beq_self_eq_true] at hk
      obtain rfl := Option.some.inj hk
      have hrest : drop p.1 l = l :=
        drop_of_not_mem fun q hq heq => hp (List.mem_map.2 ⟨q, hq, heq⟩)
      rw [show drop p.1 (p :: l) = drop p.1 l by simp [drop], hrest]
      simp only [total, List.map_cons, List.sum_cons]
      omega
    · have hbeq : (key == p.1) = false := by simpa using hkey
      rw [hbeq] at hk
      have hrest := ih hl hk
      rw [show drop key (p :: l) = p :: drop key l by simp [drop, Ne.symm hkey]]
      simp only [total, List.map_cons, List.sum_cons] at hrest ⊢
      omega

theorem total_put {f : β → ℕ} : total f (put key w l) = total f (drop key l) + f w := by
  simp [put, total]

theorem drop_of_lookup (h : l.lookup key = none) : drop key l = l :=
  drop_of_not_mem (lookup_eq_none.1 h)

/-- Looking up keys gives the values under them, each once. -/
theorem filterMap_lookup_perm {keys : List κ} (hl : (l.map (·.1)).Nodup) (hk : keys.Nodup)
    (hsub : ∀ k ∈ keys, k ∈ l.map (·.1)) :
    (keys.filterMap fun k => l.lookup k).Perm ((l.filter (·.1 ∈ keys)).map (·.2)) := by
  have hfst : ((l.filter (·.1 ∈ keys)).map (·.1)).Nodup := (List.filter_sublist.map _).nodup hl
  have hkeys : keys.Perm ((l.filter (·.1 ∈ keys)).map (·.1)) := by
    refine (List.perm_ext_iff_of_nodup hk hfst).2 fun k => ⟨fun h => ?_, fun h => ?_⟩
    · obtain ⟨p, hp, rfl⟩ := List.mem_map.1 (hsub k h)
      exact List.mem_map.2 ⟨p, List.mem_filter.2 ⟨hp, by simpa using h⟩, rfl⟩
    · obtain ⟨p, hp, rfl⟩ := List.mem_map.1 h
      simpa using (List.mem_filter.1 hp).2
  refine (hkeys.filterMap _).trans ?_
  rw [List.filterMap_map]
  have hvalues : (l.filter (·.1 ∈ keys)).filterMap ((fun k => l.lookup k) ∘ (·.1)) =
      (l.filter (·.1 ∈ keys)).filterMap fun p => some p.2 :=
    List.filterMap_congr fun p hp => (lookup_eq_some hl).2 (List.mem_filter.1 hp).1
  rw [hvalues, ← List.filterMap_eq_map]
  rfl

end Assoc
