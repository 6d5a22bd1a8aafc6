import Mathlib.Data.List.Induction
import Mathlib.Data.List.Nodup
import Mathlib.Data.Nat.Notation

/-!
# Keys that count once

A log of keyed observations in which only the first one of a key counts. What a key counts for is
the value it was first seen with.
-/

namespace FirstSeen

variable {κ β : Type*} [DecidableEq κ] {log : List (κ × β)} {p : κ × β} {k : κ}

/-- One more observation. -/
def note (seen : List (κ × β)) (p : κ × β) : List (κ × β) :=
  if p.1 ∈ seen.map (·.1) then seen else seen ++ [p]

/-- The observations whose key was new. -/
def firsts (log : List (κ × β)) : List (κ × β) := log.foldl note []

/-- How many keys were first seen with a value of this kind. -/
def count (P : β → Bool) (log : List (κ × β)) : ℕ := (firsts log).countP fun p => P p.2

@[simp]
theorem firsts_nil : firsts ([] : List (κ × β)) = [] := rfl

@[simp]
theorem firsts_concat : firsts (log ++ [p]) = note (firsts log) p := by
  simp [firsts]

theorem mem_keys : k ∈ (firsts log).map (·.1) ↔ k ∈ log.map (·.1) := by
  induction log using List.reverseRecOn with
  | nil => simp
  | append_singleton log p ih =>
    rw [firsts_concat, note]
    split
    · rename_i hold
      rw [ih, List.map_append, List.mem_append]
      refine ⟨.inl, fun h => h.elim id fun h => ?_⟩
      obtain rfl := by simpa using h
      exact ih.1 hold
    · rw [List.map_append, List.map_append, List.mem_append, List.mem_append, ih]

theorem firsts_of_mem (h : p.1 ∈ log.map (·.1)) : firsts (log ++ [p]) = firsts log := by
  rw [firsts_concat, note, if_pos (mem_keys.2 h)]

theorem firsts_of_not_mem (h : p.1 ∉ log.map (·.1)) : firsts (log ++ [p]) = firsts log ++ [p] := by
  rw [firsts_concat, note, if_neg (mt mem_keys.1 h)]

/-- A key that was seen counts no more. -/
theorem count_of_mem {P : β → Bool} (h : p.1 ∈ log.map (·.1)) :
    count P (log ++ [p]) = count P log := by
  rw [count, firsts_of_mem h, count]

/-- A new key counts for its value. -/
theorem count_of_not_mem {P : β → Bool} (h : p.1 ∉ log.map (·.1)) :
    count P (log ++ [p]) = count P log + if P p.2 then 1 else 0 := by
  rw [count, firsts_of_not_mem h, List.countP_append, List.countP_singleton, count]

theorem firsts_of_nodup (h : (log.map (·.1)).Nodup) : firsts log = log := by
  induction log using List.reverseRecOn with
  | nil => rfl
  | append_singleton log p ih =>
    rw [List.map_append, List.nodup_append] at h
    obtain ⟨hlog, -, hnew⟩ := h
    rw [firsts_of_not_mem fun hmem => hnew _ hmem _ (by simp) rfl, ih hlog]

/-- Later observations come behind. -/
theorem firsts_append (more : List (κ × β)) : firsts log <+: firsts (log ++ more) := by
  induction more using List.reverseRecOn with
  | nil => simp
  | append_singleton more p ih =>
    rw [← List.append_assoc, firsts_concat, note]
    split
    · exact ih
    · exact ih.trans (List.prefix_append _ _)

theorem firsts_subset (h : p ∈ firsts log) : p ∈ log := by
  induction log using List.reverseRecOn with
  | nil => exact h
  | append_singleton log q ih =>
    rw [firsts_concat, note] at h
    split at h
    · exact List.mem_append_left _ (ih h)
    · exact (List.mem_append.1 h).elim (fun h => List.mem_append_left _ (ih h))
        (List.mem_append_right _)

theorem nodup_keys : ((firsts log).map (·.1)).Nodup := by
  induction log using List.reverseRecOn with
  | nil => exact List.nodup_nil
  | append_singleton log p ih =>
    rw [firsts_concat, note]
    split
    · exact ih
    · rename_i hnew
      rw [List.map_append, List.nodup_append]
      refine ⟨ih, List.nodup_singleton _, fun k hk j hj heq => hnew ?_⟩
      obtain rfl : j = p.1 := by simpa using hj
      rwa [← heq]

/-- Behind the keys that were seen comes the first of the others. -/
theorem firsts_next : ∀ (more log : List (κ × β)),
    (firsts (log ++ more))[(firsts log).length]? =
      more.find? fun p => p.1 ∉ (firsts log).map (·.1)
  | [], log => by simp
  | p :: more, log => by
    rw [List.append_cons]
    by_cases hp : p.1 ∈ (firsts log).map (·.1)
    · have hold : firsts (log ++ [p]) = firsts log := by rw [firsts_concat, note, if_pos hp]
      rw [List.find?_cons_of_neg (by simpa using hp), ← hold]
      exact firsts_next more (log ++ [p])
    · have hnew : firsts (log ++ [p]) = firsts log ++ [p] := by rw [firsts_concat, note, if_neg hp]
      obtain ⟨rest, hrest⟩ := @firsts_append κ β _ (log ++ [p]) more
      rw [List.find?_cons_of_pos (by simpa using hp), ← hrest, hnew, List.append_assoc,
        List.getElem?_append_right (Nat.le_refl _)]
      simp

section Collect

variable {α : Type*} [DecidableEq α] {l xs ys : List α} {a : α}

/-- Values in their order, each of them once. -/
def collect (l xs : List α) : List α := xs.foldl (fun l a => if a ∈ l then l else l ++ [a]) l

@[simp]
theorem collect_nil : collect l [] = l := rfl

theorem collect_append : collect l (xs ++ ys) = collect (collect l xs) ys := List.foldl_append

theorem collect_concat :
    collect l (xs ++ [a]) = if a ∈ collect l xs then collect l xs else collect l xs ++ [a] := by
  rw [collect_append]
  rfl

theorem mem_collect : a ∈ collect l xs ↔ a ∈ l ∨ a ∈ xs := by
  induction xs using List.reverseRecOn with
  | nil => simp
  | append_singleton xs b ih =>
    rw [collect_concat]
    by_cases hb : b ∈ collect l xs
    · rw [if_pos hb, ih, List.mem_append, List.mem_singleton]
      refine ⟨fun h => h.imp id .inl, ?_⟩
      rintro (h | h | rfl)
      · exact .inl h
      · exact .inr h
      · exact ih.1 hb
    · rw [if_neg hb, List.mem_append, ih, List.mem_append, List.mem_singleton, or_assoc]

theorem nodup_collect (h : l.Nodup) : (collect l xs).Nodup := by
  induction xs using List.reverseRecOn with
  | nil => exact h
  | append_singleton xs b ih =>
    rw [collect_concat]
    by_cases hb : b ∈ collect l xs
    · rwa [if_pos hb]
    · rw [if_neg hb]
      refine List.nodup_append.2 ⟨ih, List.nodup_singleton b, fun x hx y hy => ?_⟩
      rintro rfl
      exact hb (List.mem_singleton.1 hy ▸ hx)

/-- What is collected behind a list is what the list does not have. -/
theorem collect_eq (l xs : List α) : collect l xs = l ++ (collect [] xs).filter (· ∉ l) := by
  induction xs using List.reverseRecOn with
  | nil => simp
  | append_singleton xs b ih =>
    rw [collect_concat, collect_concat]
    by_cases hl : b ∈ l
    · rw [if_pos (mem_collect.2 (.inl hl)), ih]
      split_ifs
      · rfl
      · simp [hl]
    · by_cases hxs : b ∈ xs
      · rw [if_pos (mem_collect.2 (.inr hxs)), if_pos (mem_collect.2 (.inr hxs)), ih]
      · have hnew : b ∉ collect l xs := fun h => (mem_collect.1 h).elim hl hxs
        have hnew' : b ∉ collect [] xs := fun h => (mem_collect.1 h).elim List.not_mem_nil hxs
        rw [if_neg hnew, if_neg hnew', ih]
        simp [hl]

/-- Values in front of others make no difference exactly when they begin them. -/
theorem collect_eq_iff : collect [] (xs ++ ys) = collect [] ys ↔ collect [] xs <+: collect [] ys := by
  rw [collect_append, collect_eq]
  constructor
  · intro h
    rw [← h]
    exact List.prefix_append _ _
  · rintro ⟨rest, h⟩
    have hnodup : (collect [] xs ++ rest).Nodup := h ▸ nodup_collect List.nodup_nil
    have hapart := (List.nodup_append.1 hnodup).2.2
    rw [← h, List.filter_append]
    have hnone : (collect [] xs).filter (· ∉ collect [] xs) = [] := by
      refine List.filter_eq_nil_iff.2 fun a ha => ?_
      simpa using ha
    have hall : rest.filter (· ∉ collect [] xs) = rest := by
      refine List.filter_eq_self.2 fun a ha => ?_
      simpa using fun hin => hapart a hin a ha rfl
    rw [hnone, hall, List.nil_append]

end Collect

end FirstSeen
