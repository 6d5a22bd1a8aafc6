import Mathlib.Algebra.GroupWithZero.Nat
import Mathlib.Data.List.Basic
import Mathlib.Data.List.Infix
import Mathlib.Data.Nat.Notation

/-!
# Fields in a text that is cut

A text of fields, each with a separator behind it, is cut at some number of bytes: the fields in
front of the cut are whole, and behind the last of them is what is left of one more. A character
that the cut falls into is replaced by a mark.
-/

namespace Fields

variable {α : Type*}

/-- The bytes of a text. -/
def weight (size : α → ℕ) (l : List α) : ℕ := (l.map size).sum

/-- The front of a text with so many bytes. -/
def cut (size : α → ℕ) (mark : α) : ℕ → List α → List α
  | _, [] => []
  | n, c :: rest =>
    if size c ≤ n then c :: cut size mark (n - size c) rest else if n = 0 then [] else [mark]

/-- Fields, each with a separator behind it. -/
def join (sep : α) (fields : List (List α)) : List α := fields.flatMap (· ++ [sep])

/-- The fields in front of a cut. -/
def whole (size : α → ℕ) (sep : α) : ℕ → List (List α) → List (List α)
  | _, [] => []
  | n, f :: fields =>
    if weight size (f ++ [sep]) ≤ n then
      f :: whole size sep (n - weight size (f ++ [sep])) fields
    else []

/-- What is left of the field that a cut falls into. -/
def torn (size : α → ℕ) (mark sep : α) : ℕ → List (List α) → List α
  | _, [] => []
  | n, f :: fields =>
    if weight size (f ++ [sep]) ≤ n then torn size mark sep (n - weight size (f ++ [sep])) fields
    else cut size mark n f

variable {size : α → ℕ} {mark sep : α} {n : ℕ}

@[simp]
theorem weight_nil : weight size [] = 0 := rfl

@[simp]
theorem weight_cons (c : α) (l : List α) : weight size (c :: l) = size c + weight size l := rfl

@[simp]
theorem weight_append (l m : List α) : weight size (l ++ m) = weight size l + weight size m := by
  simp [weight]

/-- What fits is kept. -/
theorem cut_append_of_le : ∀ {n : ℕ} {l : List α} (m : List α), weight size l ≤ n →
    cut size mark n (l ++ m) = l ++ cut size mark (n - weight size l) m
  | _, [], _, _ => rfl
  | n, c :: l, m, h => by
    rw [weight_cons] at h
    rw [List.cons_append, cut, if_pos (by omega), cut_append_of_le m (by omega), weight_cons,
      Nat.sub_sub]
    rfl

/-- What is behind a cut does not matter. -/
theorem cut_append_of_lt : ∀ {n : ℕ} {l : List α} (m : List α), n < weight size l →
    cut size mark n (l ++ m) = cut size mark n l
  | _, [], _, h => absurd h (Nat.not_lt_zero _)
  | n, c :: l, m, h => by
    rw [weight_cons] at h
    rw [List.cons_append, cut, cut]
    split
    · rw [cut_append_of_lt m (by omega)]
    · rfl

theorem cut_of_le {l : List α} (h : weight size l ≤ n) : cut size mark n l = l := by
  have hcut := @cut_append_of_le _ size mark n l [] h
  simpa [cut] using hcut

/-- A cut brings in nothing but the mark. -/
theorem mem_cut {c : α} : ∀ {n : ℕ} {l : List α}, c ∈ cut size mark n l → c ∈ l ∨ c = mark
  | _, [], h => absurd h List.not_mem_nil
  | n, d :: l, h => by
    rw [cut] at h
    split_ifs at h
    · rcases List.mem_cons.1 h with rfl | h
      · exact .inl List.mem_cons_self
      · exact (mem_cut h).imp_left (List.mem_cons_of_mem d)
    · exact absurd h List.not_mem_nil
    · exact .inr (List.mem_singleton.1 h)

theorem join_cons (f : List α) (fields : List (List α)) :
    join sep (f :: fields) = f ++ sep :: join sep fields := by
  simp [join]

theorem join_append (l m : List (List α)) : join sep (l ++ m) = join sep l ++ join sep m := by
  simp [join]

/-- A cut text of fields is its whole fields and what is left of one. -/
theorem cut_join (hsep : size sep = 1) : ∀ (n : ℕ) (fields : List (List α)),
    cut size mark n (join sep fields) = join sep (whole size sep n fields) ++
      torn size mark sep n fields
  | _, [] => rfl
  | n, f :: fields => by
    have hone : weight size (f ++ [sep]) = weight size f + 1 := by simp [hsep]
    rw [whole, torn]
    split
    · rename_i hle
      rw [join, List.flatMap_cons, cut_append_of_le _ hle, join_cons]
      change _ ++ cut size mark _ (join sep fields) = _
      rw [cut_join hsep]
      simp
    · rename_i hlt
      rw [join_cons]
      change _ = cut size mark n f
      by_cases hf : n < weight size f
      · exact cut_append_of_lt _ hf
      · obtain rfl : n = weight size f := by omega
        rw [cut_append_of_le _ le_rfl, cut_of_le le_rfl, Nat.sub_self, cut,
          if_neg (by omega), if_pos rfl, List.append_nil]

theorem not_mem_torn (hmark : mark ≠ sep) : ∀ {n : ℕ} {fields : List (List α)},
    (∀ f ∈ fields, sep ∉ f) → sep ∉ torn size mark sep n fields
  | _, [], _ => List.not_mem_nil
  | n, f :: fields, h => by
    rw [torn]
    split
    · exact not_mem_torn hmark fun g hg => h g (List.mem_cons_of_mem f hg)
    · intro hmem
      exact (mem_cut hmem).elim (h f List.mem_cons_self) (Ne.symm hmark)

theorem mem_whole {g : List α} : ∀ {n : ℕ} {fields : List (List α)},
    g ∈ whole size sep n fields → g ∈ fields
  | _, [], h => h
  | n, f :: fields, h => by
    rw [whole] at h
    split at h
    · rcases List.mem_cons.1 h with rfl | h
      · exact List.mem_cons_self
      · exact List.mem_cons_of_mem f (mem_whole h)
    · exact absurd h List.not_mem_nil

/-- Groups of fields that fit are whole. -/
theorem whole_append_of_le : ∀ {n : ℕ} {l : List (List α)} (m : List (List α)),
    weight size (join sep l) ≤ n →
    whole size sep n (l ++ m) = l ++ whole size sep (n - weight size (join sep l)) m
  | _, [], _, _ => rfl
  | n, f :: l, m, h => by
    have hw : weight size (join sep (f :: l)) =
        weight size (f ++ [sep]) + weight size (join sep l) := by
      rw [join, List.flatMap_cons, weight_append]
      rfl
    rw [hw] at h ⊢
    rw [List.cons_append, whole, if_pos (by omega), whole_append_of_le m (by omega), Nat.sub_sub]
    rfl

theorem torn_append_of_le : ∀ {n : ℕ} {l : List (List α)} (m : List (List α)),
    weight size (join sep l) ≤ n →
    torn size mark sep n (l ++ m) = torn size mark sep (n - weight size (join sep l)) m
  | _, [], _, _ => rfl
  | n, f :: l, m, h => by
    have hw : weight size (join sep (f :: l)) =
        weight size (f ++ [sep]) + weight size (join sep l) := by
      rw [join, List.flatMap_cons, weight_append]
      rfl
    rw [hw] at h ⊢
    rw [List.cons_append, torn, if_pos (by omega), torn_append_of_le m (by omega), Nat.sub_sub]

section Split

variable [BEq α] [LawfulBEq α]

/-- Splitting at the separators gives the fields back. -/
theorem splitOn_join {q : List α} (hq : sep ∉ q) : ∀ {fields : List (List α)},
    (∀ f ∈ fields, sep ∉ f) → (join sep fields ++ q).splitOn sep = fields ++ [q]
  | [], _ => by
    rw [List.splitOn_eq_splitOnP]
    exact List.splitOnP_eq_singleton fun x hx => by
      simp only [beq_eq_false_iff_ne, ne_eq]
      rintro rfl
      exact hq hx
  | f :: fields, h => by
    rw [join_cons, List.append_assoc, List.cons_append, List.splitOn_eq_splitOnP,
      List.splitOnP_append_cons_of_forall_mem ?_ sep (by simp), ← List.splitOn_eq_splitOnP,
      splitOn_join hq fun g hg => h g (List.mem_cons_of_mem f hg)]
    · rfl
    · intro x hx
      simp only [beq_eq_false_iff_ne, ne_eq]
      rintro rfl
      exact h f List.mem_cons_self hx

theorem join_inj {l m : List (List α)} {q r : List α} (hl : ∀ f ∈ l, sep ∉ f) (hq : sep ∉ q)
    (hm : ∀ f ∈ m, sep ∉ f) (hr : sep ∉ r) (h : join sep l ++ q = join sep m ++ r) :
    l = m ∧ q = r := by
  have hsplit := congrArg (List.splitOn sep) h
  rw [splitOn_join hq hl, splitOn_join hr hm] at hsplit
  obtain ⟨rfl, hlast⟩ := List.append_inj' hsplit rfl
  exact ⟨rfl, (List.cons.inj hlast).1⟩

end Split

/-- A text is its fields and what is behind the last separator. -/
theorem exists_join [DecidableEq α] (sep : α) : ∀ text : List α,
    ∃ fields q, text = join sep fields ++ q ∧ (∀ f ∈ fields, sep ∉ f) ∧ sep ∉ q
  | [] => ⟨[], [], rfl, fun _ h => absurd h List.not_mem_nil, List.not_mem_nil⟩
  | c :: text => by
    obtain ⟨fields, q, rfl, hfields, hq⟩ := exists_join sep text
    by_cases hc : c = sep
    · subst hc
      exact ⟨[] :: fields, q, rfl, List.forall_mem_cons.2 ⟨List.not_mem_nil, hfields⟩, hq⟩
    · rcases fields with _ | ⟨f, fields⟩
      · exact ⟨[], c :: q, rfl, hfields, by simpa using ⟨Ne.symm hc, hq⟩⟩
      · obtain ⟨hf, hfields⟩ := List.forall_mem_cons.1 hfields
        refine ⟨(c :: f) :: fields, q, rfl, List.forall_mem_cons.2 ⟨?_, hfields⟩, hq⟩
        simpa using ⟨Ne.symm hc, hf⟩

theorem length_le_join (fields : List (List α)) : fields.length ≤ (join sep fields).length := by
  induction fields with
  | nil => exact Nat.zero_le _
  | cons f fields ih =>
    rw [join_cons]
    simp only [List.length_cons, List.length_append]
    omega

/-- A text up to its last separator is its fields. -/
theorem front_join [DecidableEq α] {fields : List (List α)} {q : List α} (hq : sep ∉ q) :
    ((join sep fields ++ q).reverse.dropWhile (· ≠ sep)).reverse = join sep fields := by
  have hrest : ∀ x ∈ q.reverse, (decide (x ≠ sep)) = true := by
    intro x hx
    simp only [ne_eq, decide_not, Bool.not_eq_true', decide_eq_false_iff_not]
    rintro rfl
    exact hq (List.mem_reverse.1 hx)
  rw [List.reverse_append, List.dropWhile_append_of_pos hrest]
  rcases fields.eq_nil_or_concat with rfl | ⟨l, f, rfl⟩
  · rfl
  · simp [join]

end Fields
