import Mathlib.Algebra.GroupWithZero.Nat
import Mathlib.Data.List.Basic
import Mathlib.Data.List.Forall2
import Mathlib.Data.List.Nodup
import Mathlib.Data.Nat.Notation

/-!
# Tables

A database table as the list of its rows in insertion order: the guarded `UPDATE`, the key that
names at most one row, and what an update leaves alone.
-/

namespace Table

variable {α β κ : Type*}

/-- `UPDATE ... SET f WHERE p`: rows keep their place. -/
def updateWhere (p : α → Bool) (f : α → α) (rows : List α) : List α :=
  rows.map fun r => if p r then f r else r

@[simp]
theorem updateWhere_nil (p : α → Bool) (f : α → α) : updateWhere p f [] = [] := rfl

@[simp]
theorem updateWhere_cons (p : α → Bool) (f : α → α) (r : α) (rows : List α) :
    updateWhere p f (r :: rows) = (if p r then f r else r) :: updateWhere p f rows := rfl

theorem mem_updateWhere {p : α → Bool} {f : α → α} {rows : List α} {r : α} :
    r ∈ updateWhere p f rows ↔ ∃ q ∈ rows, (if p q then f q else q) = r := by
  simp [updateWhere]

/-- A column that the update does not assign keeps its values. -/
theorem map_updateWhere {p : α → Bool} {f : α → α} {g : α → β} (h : ∀ r, p r → g (f r) = g r)
    (rows : List α) : (updateWhere p f rows).map g = rows.map g := by
  simp only [updateWhere, List.map_map]
  refine List.map_congr_left fun r _ => ?_
  by_cases hp : p r
  · simp [hp, h r hp]
  · simp [hp]

theorem updateWhere_of_none {p : α → Bool} {f : α → α} {rows : List α}
    (h : ∀ r ∈ rows, p r = false) : updateWhere p f rows = rows := by
  simp only [updateWhere]
  refine (List.map_congr_left fun r hr => ?_).trans (List.map_id rows)
  simp [h r hr]

/-- A selection of rows that the update does not change is updated like the table. -/
theorem filter_updateWhere {p q : α → Bool} {f : α → α} (h : ∀ r, p r → q (f r) = q r)
    (rows : List α) : (updateWhere p f rows).filter q = updateWhere p f (rows.filter q) := by
  induction rows with
  | nil => rfl
  | cons r rest ih =>
    have hr : q (if p r then f r else r) = q r := by
      split
      · exact h r ‹_›
      · rfl
    by_cases hq : q r
    · rw [updateWhere_cons, List.filter_cons_of_pos (hr.trans hq), List.filter_cons_of_pos hq,
        updateWhere_cons, ih]
    · rw [updateWhere_cons, List.filter_cons_of_neg (by rw [hr]; exact hq),
        List.filter_cons_of_neg hq, ih]

theorem getLast?_updateWhere (p : α → Bool) (f : α → α) (rows : List α) :
    (updateWhere p f rows).getLast? = rows.getLast?.map fun r => if p r then f r else r :=
  List.getLast?_map

/-- Row by row, an update that moves the rows it names along `R` moves the table along `R`. -/
theorem forall₂_updateWhere {R : α → α → Prop} (hrefl : ∀ r, R r r) {p : α → Bool} {f : α → α} :
    ∀ {rows : List α}, (∀ r ∈ rows, p r → R r (f r)) → List.Forall₂ R rows (updateWhere p f rows)
  | [], _ => .nil
  | r :: rows, h => by
    refine .cons ?_ (forall₂_updateWhere hrefl fun q hq => h q (List.mem_cons_of_mem _ hq))
    by_cases hp : p r
    · simpa only [hp, if_true] using h r List.mem_cons_self hp
    · simpa only [hp, Bool.false_eq_true, if_false] using hrefl r

/-- The same from a table that was moved already. -/
theorem forall₂_updateWhere_of {R : α → α → Prop} {p : α → Bool} {f : α → α} {rows now : List α}
    (h : List.Forall₂ R rows now) (hf : ∀ r ∈ rows, ∀ q, R r q → p q → R r (f q)) :
    List.Forall₂ R rows (updateWhere p f now) := by
  induction h with
  | nil => exact .nil
  | @cons r q _ _ hrq _ ih =>
    refine .cons ?_ (ih fun r hr => hf r (List.mem_cons_of_mem _ hr))
    by_cases hp : p q
    · simpa only [hp, if_true] using hf r List.mem_cons_self q hrq hp
    · simpa only [hp, Bool.false_eq_true, if_false] using hrq

/-- The same for a list of updates, `R` being kept by each of them. -/
theorem forall₂_foldl_updateWhere {R : α → α → Prop} {p : β → α → Bool} {f : β → α → α}
    (h : ∀ b r q, R r q → p b q → R r (f b q)) {rows : List α} :
    ∀ (l : List β) (now : List α), List.Forall₂ R rows now →
      List.Forall₂ R rows (l.foldl (fun rows b => updateWhere (p b) (f b) rows) now)
  | [], _, hnow => hnow
  | b :: l, now, hnow =>
    forall₂_foldl_updateWhere h l _ (forall₂_updateWhere_of hnow fun r _ q => h b r q)

theorem forall₂_source {R : α → α → Prop} {rows rows' : List α} (h : List.Forall₂ R rows rows')
    {b : α} (hb : b ∈ rows') : ∃ a ∈ rows, R a b := by
  induction h with
  | nil => simp at hb
  | cons hab _ ih =>
    rcases List.mem_cons.1 hb with rfl | hb
    · exact ⟨_, List.mem_cons_self, hab⟩
    · obtain ⟨a, ha, hr⟩ := ih hb
      exact ⟨a, List.mem_cons_of_mem _ ha, hr⟩

theorem forall₂_target {R : α → α → Prop} {rows rows' : List α} (h : List.Forall₂ R rows rows')
    {a : α} (ha : a ∈ rows) : ∃ b ∈ rows', R a b := by
  induction h with
  | nil => simp at ha
  | cons hab _ ih =>
    rcases List.mem_cons.1 ha with rfl | ha
    · exact ⟨_, List.mem_cons_self, hab⟩
    · obtain ⟨b, hb, hr⟩ := ih ha
      exact ⟨b, List.mem_cons_of_mem _ hb, hr⟩

/-- A column that every move keeps is the same column. -/
theorem forall₂_map_eq {R : α → α → Prop} (g : α → β) (hg : ∀ a b, R a b → g b = g a)
    {rows rows' : List α} (h : List.Forall₂ R rows rows') : rows'.map g = rows.map g := by
  induction h with
  | nil => rfl
  | cons hab _ ih => simp [hg _ _ hab, ih]

/-- The rows have distinct keys. -/
def Keyed (key : α → κ) (rows : List α) : Prop := (rows.map key).Nodup

theorem Keyed.eq {key : α → κ} {rows : List α} (h : Keyed key rows) {a b : α} (ha : a ∈ rows)
    (hb : b ∈ rows) (hk : key a = key b) : a = b :=
  List.inj_on_of_nodup_map h ha hb hk

/-- The row under its key. -/
theorem Keyed.find? [DecidableEq κ] {key : α → κ} {rows : List α} (h : Keyed key rows) {a : α}
    (ha : a ∈ rows) : rows.find? (fun r => decide (key r = key a)) = some a := by
  rcases hfind : rows.find? (fun r => decide (key r = key a)) with _ | b
  · simpa using List.find?_eq_none.1 hfind a ha
  · have hb : key b = key a := by simpa using List.find?_some hfind
    rw [h.eq (List.mem_of_find?_eq_some hfind) ha hb]

theorem Keyed.updateWhere {key : α → κ} {p : α → Bool} {f : α → α} {rows : List α}
    (h : Keyed key rows) (hf : ∀ r, p r → key (f r) = key r) :
    Keyed key (updateWhere p f rows) := by
  unfold Keyed
  rw [map_updateWhere hf]
  exact h

theorem Keyed.append {key : α → κ} {rows : List α} {r : α} (h : Keyed key rows)
    (hr : ∀ q ∈ rows, key q ≠ key r) : Keyed key (rows ++ [r]) := by
  unfold Keyed
  rw [List.map_append, List.nodup_append]
  refine ⟨h, by simp, ?_⟩
  intro a ha b hb
  obtain ⟨q, hq, rfl⟩ := List.mem_map.1 ha
  obtain rfl := List.mem_singleton.1 hb
  exact hr q hq

/-- Overwriting the row of a key moves a count of the rows by what it says of the old and the new
row. -/
theorem countP_overwrite [DecidableEq κ] {key : α → κ} {p : α → Bool} {x y : α} :
    ∀ {rows : List α}, Keyed key rows → x ∈ rows →
      (updateWhere (fun r => decide (key r = key x)) (fun _ => y) rows).countP p +
        (if p x then 1 else 0) = rows.countP p + if p y then 1 else 0
  | [], _, hx => by cases hx
  | z :: rest, h, hx => by
    obtain ⟨hz, hrest⟩ := List.nodup_cons.1 h
    rw [updateWhere_cons, List.countP_cons, List.countP_cons]
    rcases List.mem_cons.1 hx with rfl | hx
    · have hne : ∀ r ∈ rest, decide (key r = key x) = false := fun r hr =>
        decide_eq_false fun h => hz (List.mem_map.2 ⟨r, hr, h⟩)
      rw [updateWhere_of_none hne]
      simp only [decide_true, if_true]
      omega
    · have hne : key z ≠ key x := fun h => hz (List.mem_map.2 ⟨x, hx, h.symm⟩)
      have ih := countP_overwrite (p := p) (y := y) hrest hx
      simp only [hne, decide_false, Bool.false_eq_true, if_false]
      omega

/-- Overwriting the row of a key moves a sum over the rows from the old row's share to the new
one's. -/
theorem sum_overwrite [DecidableEq κ] {key : α → κ} {w : α → ℕ} {x y : α} :
    ∀ {rows : List α}, Keyed key rows → x ∈ rows →
      ((updateWhere (fun r => decide (key r = key x)) (fun _ => y) rows).map w).sum + w x =
        (rows.map w).sum + w y
  | [], _, hx => by cases hx
  | z :: rest, h, hx => by
    obtain ⟨hz, hrest⟩ := List.nodup_cons.1 h
    rw [updateWhere_cons, List.map_cons, List.sum_cons, List.map_cons, List.sum_cons]
    rcases List.mem_cons.1 hx with rfl | hx
    · have hne : ∀ r ∈ rest, decide (key r = key x) = false := fun r hr =>
        decide_eq_false fun h => hz (List.mem_map.2 ⟨r, hr, h⟩)
      rw [updateWhere_of_none hne]
      simp only [decide_true, if_true]
      omega
    · have hne : key z ≠ key x := fun h => hz (List.mem_map.2 ⟨x, hx, h.symm⟩)
      have ih := sum_overwrite (w := w) (y := y) hrest hx
      simp only [hne, decide_false, Bool.false_eq_true, if_false]
      omega

section Lookup

variable {κ β γ : Type*} [BEq κ]

/-- Looking up a key among the entries whose keys meet a condition. -/
theorem lookup_filter_key [LawfulBEq κ] (P : κ → Bool) (key : κ) : ∀ l : List (κ × β),
    (l.filter fun e => P e.1).lookup key = if P key then l.lookup key else none
  | [] => by simp
  | (k, v) :: l => by
    have ih := lookup_filter_key P key l
    by_cases hk : key == k
    · obtain rfl := eq_of_beq hk
      by_cases hP : P key <;> simp [hP, ih]
    · by_cases hP : P k <;> simp [List.lookup_cons, hP, hk, ih]

theorem lookup_map_value (f : β → γ) (key : κ) : ∀ l : List (κ × β),
    (l.map fun e => (e.1, f e.2)).lookup key = (l.lookup key).map f
  | [] => rfl
  | (k, v) :: l => by
    have ih := lookup_map_value f key l
    by_cases hk : key == k <;> simp [List.lookup_cons, hk, ih]

end Lookup

end Table
