import LatteWork.Lib.Assoc
import Mathlib.Data.String.Basic

/-!
# Ordered maps

A map over an ordered type of keys as the list of its entries in order of their keys, which is a
field of the map: a key has one value.
-/

/-- A map with its entries in order. -/
structure OrdMap (κ β : Type) [LinearOrder κ] where
  entries : List (κ × β)
  sorted : entries.Pairwise fun p q => p.1 < q.1
  deriving DecidableEq

namespace OrdMap

variable {κ β γ : Type} [LinearOrder κ]

def empty : OrdMap κ β := ⟨[], .nil⟩

instance : Inhabited (OrdMap κ β) := ⟨empty⟩

/-- Put an entry at the place of its key. -/
def insertEntry (key : κ) (v : β) : List (κ × β) → List (κ × β)
  | [] => [(key, v)]
  | p :: rest =>
    if key < p.1 then (key, v) :: p :: rest
    else if key = p.1 then (key, v) :: rest
    else p :: insertEntry key v rest

theorem mem_insertEntry {key : κ} {v : β} {p : κ × β} : ∀ {l : List (κ × β)},
    l.Pairwise (fun p q => p.1 < q.1) →
      (p ∈ insertEntry key v l ↔ p = (key, v) ∨ (p ∈ l ∧ p.1 ≠ key))
  | [], _ => by simp [insertEntry]
  | q :: rest, h => by
    obtain ⟨hq, hrest⟩ := List.pairwise_cons.1 h
    unfold insertEntry
    split_ifs with hlt heq
    · have hne : ∀ p ∈ q :: rest, p.1 ≠ key := fun p hp => by
        rcases List.mem_cons.1 hp with rfl | hp
        · exact hlt.ne'
        · exact (hlt.trans (hq p hp)).ne'
      rw [List.mem_cons]
      exact or_congr_right ⟨fun hp => ⟨hp, hne p hp⟩, And.left⟩
    · have hne : ∀ p ∈ rest, p.1 ≠ key := fun p hp => heq ▸ (hq p hp).ne'
      rw [List.mem_cons, List.mem_cons]
      refine or_congr_right ⟨fun hp => ⟨.inr hp, hne p hp⟩, ?_⟩
      rintro ⟨rfl | hp, hkey⟩
      · exact absurd heq.symm hkey
      · exact hp
    · rw [List.mem_cons, mem_insertEntry hrest, List.mem_cons]
      constructor
      · rintro (rfl | rfl | ⟨hp, hkey⟩)
        · exact .inr ⟨.inl rfl, fun h => heq h.symm⟩
        · exact .inl rfl
        · exact .inr ⟨.inr hp, hkey⟩
      · rintro (rfl | ⟨rfl | hp, hkey⟩)
        · exact .inr (.inl rfl)
        · exact .inl rfl
        · exact .inr (.inr ⟨hp, hkey⟩)

theorem sorted_insertEntry {key : κ} {v : β} : ∀ {l : List (κ × β)},
    l.Pairwise (fun p q => p.1 < q.1) → (insertEntry key v l).Pairwise fun p q => p.1 < q.1
  | [], _ => List.pairwise_singleton _ _
  | q :: rest, h => by
    obtain ⟨hq, hrest⟩ := List.pairwise_cons.1 h
    unfold insertEntry
    split_ifs with hlt heq
    · refine List.pairwise_cons.2 ⟨fun p hp => ?_, h⟩
      rcases List.mem_cons.1 hp with rfl | hp
      · exact hlt
      · exact hlt.trans (hq p hp)
    · exact List.pairwise_cons.2 ⟨fun p hp => heq ▸ hq p hp, hrest⟩
    · refine List.pairwise_cons.2 ⟨fun p hp => ?_, sorted_insertEntry hrest⟩
      rcases (mem_insertEntry hrest).1 hp with rfl | ⟨hp, -⟩
      · exact lt_of_le_of_ne (not_lt.1 hlt) fun h => heq h.symm
      · exact hq p hp

def insert (m : OrdMap κ β) (key : κ) (v : β) : OrdMap κ β :=
  ⟨insertEntry key v m.entries, sorted_insertEntry m.sorted⟩

/-- Keep the entries that a test passes. -/
def retain (m : OrdMap κ β) (p : κ × β → Bool) : OrdMap κ β :=
  ⟨m.entries.filter p, m.sorted.filter _⟩

def erase (m : OrdMap κ β) (key : κ) : OrdMap κ β := m.retain (·.1 ≠ key)

/-- Change the values, each under its key. -/
def mapValues (m : OrdMap κ β) (f : β → γ) : OrdMap κ γ :=
  ⟨m.entries.map fun p => (p.1, f p.2), List.pairwise_map.2 m.sorted⟩

def find? (m : OrdMap κ β) (key : κ) : Option β := m.entries.lookup key

def keys (m : OrdMap κ β) : List κ := m.entries.map (·.1)

def values (m : OrdMap κ β) : List β := m.entries.map (·.2)

variable {m : OrdMap κ β} {key : κ} {v : β} {p : κ × β}

@[simp]
theorem mem_insert : p ∈ (m.insert key v).entries ↔ p = (key, v) ∨ (p ∈ m.entries ∧ p.1 ≠ key) :=
  mem_insertEntry m.sorted

@[simp]
theorem mem_retain {q : κ × β → Bool} : p ∈ (m.retain q).entries ↔ p ∈ m.entries ∧ q p = true :=
  List.mem_filter

@[simp]
theorem mem_erase : p ∈ (m.erase key).entries ↔ p ∈ m.entries ∧ p.1 ≠ key := by
  simp [erase]

theorem mem_mapValues {f : β → γ} {q : κ × γ} :
    q ∈ (m.mapValues f).entries ↔ ∃ p ∈ m.entries, (p.1, f p.2) = q :=
  List.mem_map

theorem keys_nodup (m : OrdMap κ β) : (m.entries.map (·.1)).Nodup :=
  List.pairwise_map.2 (m.sorted.imp fun h => h.ne)

theorem find?_eq_some : m.find? key = some v ↔ (key, v) ∈ m.entries :=
  Assoc.lookup_eq_some m.keys_nodup

theorem find?_eq_none : m.find? key = none ↔ ∀ v, (key, v) ∉ m.entries := by
  refine ⟨fun h v hv => ?_, fun h => Option.eq_none_iff_forall_ne_some.2 fun v hv => ?_⟩
  · rw [find?_eq_some.2 hv] at h
    cases h
  · exact h v (find?_eq_some.1 hv)

theorem find?_insert (k : κ) : (m.insert key v).find? k = if k = key then some v else m.find? k := by
  split_ifs with h
  · exact find?_eq_some.2 (mem_insert.2 (.inl (by rw [h])))
  · refine Option.ext fun w => ?_
    rw [find?_eq_some, mem_insert, find?_eq_some]
    refine ⟨?_, fun hw => .inr ⟨hw, h⟩⟩
    rintro (heq | ⟨hw, -⟩)
    · exact absurd (Prod.mk.inj heq).1 h
    · exact hw

theorem find?_erase (k : κ) : (m.erase key).find? k = if k = key then none else m.find? k := by
  split_ifs with h
  · exact find?_eq_none.2 fun w hw => (mem_erase.1 hw).2 h
  · refine Option.ext fun w => ?_
    rw [find?_eq_some, mem_erase, find?_eq_some]
    exact ⟨And.left, fun hw => ⟨hw, h⟩⟩

/-- Collect values under their keys, each key's values in the order they come. -/
def collect (l : List (κ × β)) : OrdMap κ (List β) :=
  l.foldl (fun m p => m.insert p.1 ((m.find? p.1).getD [] ++ [p.2])) empty

/-- The values of one key. -/
def under (l : List (κ × β)) (key : κ) : List β := (l.filter (·.1 = key)).map (·.2)

theorem mem_under {l : List (κ × β)} : v ∈ under l key ↔ (key, v) ∈ l := by
  simp only [under, List.mem_map, List.mem_filter, decide_eq_true_eq]
  constructor
  · rintro ⟨⟨k, w⟩, ⟨h, rfl⟩, rfl⟩
    exact h
  · exact fun h => ⟨(key, v), ⟨h, rfl⟩, rfl⟩

theorem find?_foldl_collect : ∀ (l : List (κ × β)) (m : OrdMap κ (List β)) (key : κ),
    ((l.foldl (fun m p => m.insert p.1 ((m.find? p.1).getD [] ++ [p.2])) m).find? key).getD [] =
      (m.find? key).getD [] ++ under l key
  | [], m, key => by simp [under]
  | p :: l, m, key => by
    rw [List.foldl_cons, find?_foldl_collect l, find?_insert]
    by_cases h : p.1 = key
    · subst h
      simp [under]
    · have h' : ¬key = p.1 := fun heq => h heq.symm
      simp [under, h, h']

/-- The values collected under a key. -/
theorem find?_collect (l : List (κ × β)) (key : κ) :
    ((collect l).find? key).getD [] = under l key := by
  rw [collect, find?_foldl_collect]
  simp [find?, empty]

theorem insert_collected_ne_nil {m : OrdMap κ (List β)} {l : List (κ × β)}
    (hm : ∀ p ∈ m.entries, p.2 ≠ []) :
    ∀ p ∈ (l.foldl (fun m p => m.insert p.1 ((m.find? p.1).getD [] ++ [p.2])) m).entries,
      p.2 ≠ [] := by
  induction l generalizing m with
  | nil => exact hm
  | cons q l ih =>
    refine ih fun p hp => ?_
    rcases mem_insert.1 hp with rfl | ⟨hp, -⟩
    · simp
    · exact hm p hp

/-- The entries of a collection: the keys that have values, each with all of its values. -/
theorem mem_collect {l : List (κ × β)} {values : List β} :
    (key, values) ∈ (collect l).entries ↔ values = under l key ∧ values ≠ [] := by
  have hvalues : ∀ {w}, (key, w) ∈ (collect l).entries → w = under l key := fun {w} h => by
    rw [← find?_collect l key, find?_eq_some.2 h]
    rfl
  refine ⟨fun h => ⟨hvalues h, insert_collected_ne_nil (by simp [empty]) _ h⟩, ?_⟩
  rintro ⟨rfl, hne⟩
  rcases hfind : (collect l).find? key with _ | w
  · have hnil := find?_collect l key
    rw [hfind] at hnil
    exact absurd hnil.symm hne
  · have hw := find?_eq_some.1 hfind
    rwa [hvalues hw] at hw

end OrdMap
