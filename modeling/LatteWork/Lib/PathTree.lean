import LatteWork.Lib.Assoc
import Mathlib.Algebra.Order.BigOperators.Group.List
import Mathlib.Algebra.Order.Group.Nat
import Mathlib.Data.List.Infix
import Mathlib.Data.List.Perm.Subperm

/-!
# Trees of named nodes

What is at each path of a tree: a path is the list of the names that lead to it, and what is in a
folder is there only as long as the folder is. A part of a tree can be put in, taken out and moved,
and what is in a folder is weighed through the names in it.
-/

open Assoc

/-- A tree. `folder` says which nodes have names below them. -/
structure PathTree (κ α : Type) [DecidableEq κ] (folder : α → Bool) where
  entries : List (List κ × α)
  nodup : (entries.map (·.1)).Nodup
  closed : ∀ p n v, (p ++ [n], v) ∈ entries → ∃ w, (p, w) ∈ entries ∧ folder w = true

namespace PathTree

section Below

variable {κ : Type} {p q s : List κ} {n m : κ}

/-- `s` is below `p`. -/
def Below (p s : List κ) : Prop := p <+: s ∧ p ≠ s

instance [DecidableEq κ] : Decidable (Below p s) := inferInstanceAs (Decidable (_ ∧ _))

theorem below_child : Below p (p ++ [n]) :=
  ⟨List.prefix_append p [n], by simp⟩

theorem Below.extend (h : Below p q) (hs : q <+: s) : Below p s := by
  refine ⟨h.1.trans hs, ?_⟩
  rintro rfl
  exact h.2 (h.1.eq_of_length_le hs.length_le)

/-- What is below a path is a child of it or below one. -/
theorem below_iff : Below p s ↔ ∃ n, p ++ [n] <+: s := by
  constructor
  · rintro ⟨⟨r, rfl⟩, hne⟩
    rcases r with _ | ⟨n, r⟩
    · exact absurd (List.append_nil p).symm hne
    · exact ⟨n, r, by simp⟩
  · rintro ⟨n, h⟩
    exact below_child.extend h

theorem child_unique (h : p ++ [n] <+: s) (h' : p ++ [m] <+: s) : n = m := by
  have hpre := List.prefix_of_prefix_length_le h h' (by simp)
  simpa using hpre.eq_of_length (by simp)

end Below

variable {κ α : Type} [DecidableEq κ] {folder : α → Bool} {t t' : PathTree κ α folder}
variable {p q s : List κ} {v w : α}

/-- What is at a path. -/
def node (t : PathTree κ α folder) (p : List κ) : Option α :=
  @List.lookup (List κ) α instBEqOfDecidableEq p t.entries

def isFolder (t : PathTree κ α folder) (p : List κ) : Bool := (t.node p).any folder

theorem entries_nodup (t : PathTree κ α folder) : t.entries.Nodup := t.nodup.of_map _

theorem node_eq_some : t.node p = some v ↔ (p, v) ∈ t.entries := lookup_eq_some t.nodup

theorem isFolder_iff : t.isFolder p = true ↔ ∃ v, (p, v) ∈ t.entries ∧ folder v = true := by
  unfold isFolder
  rw [Option.any_eq_true]
  simp only [node_eq_some]

/-- What has something below it is a folder. -/
theorem isFolder_of_below {p : List κ} : ∀ {r : List κ}, r ≠ [] → (t.node (p ++ r)).isSome →
    t.isFolder p = true := by
  intro r
  induction r using List.reverseRecOn with
  | nil => exact fun h => absurd rfl h
  | append_singleton r n ih =>
    intro _ h
    obtain ⟨v, hv⟩ := Option.isSome_iff_exists.1 h
    rw [node_eq_some, ← List.append_assoc] at hv
    obtain ⟨w, hw, hfolder⟩ := t.closed _ _ _ hv
    rcases eq_or_ne r [] with rfl | hr
    · rw [List.append_nil] at hw
      exact isFolder_iff.2 ⟨w, hw, hfolder⟩
    · exact ih hr (Option.isSome_iff_exists.2 ⟨w, node_eq_some.2 hw⟩)

/-- What leads to a folder is a folder. -/
theorem isFolder_above (h : t.isFolder s = true) (hp : p <+: s) : t.isFolder p = true := by
  obtain ⟨r, rfl⟩ := hp
  rcases eq_or_ne r [] with rfl | hr
  · rwa [List.append_nil] at h
  · obtain ⟨v, hv, -⟩ := isFolder_iff.1 h
    exact isFolder_of_below hr (Option.isSome_iff_exists.2 ⟨v, node_eq_some.2 hv⟩)

/-- What is no folder has nothing below it. -/
theorem node_below (h : t.isFolder p = false) (hs : Below p s) : t.node s = none := by
  obtain ⟨⟨r, rfl⟩, hne⟩ := hs
  by_contra hsome
  have hr : r ≠ [] := by
    rintro rfl
    exact hne (List.append_nil p).symm
  rw [isFolder_of_below hr (Option.isSome_iff_ne_none.2 hsome)] at h
  cases h

/-- A node has its own place in a tree, and so has everything that leads to it. -/
theorem length_lt (h : (t.node p).isSome) : p.length < t.entries.length := by
  have hnodup : p.inits.Nodup := by
    rw [List.nodup_iff_injective_get]
    intro i j hij
    rw [List.get_inits, List.get_inits] at hij
    have hlen := congrArg List.length hij
    have hi : i.1 < p.length + 1 := i.2.trans_eq (List.length_inits p)
    have hj : j.1 < p.length + 1 := j.2.trans_eq (List.length_inits p)
    rw [List.length_take, List.length_take] at hlen
    exact Fin.ext (by omega)
  have hsub : p.inits ⊆ t.entries.map (·.1) := by
    intro q hq
    have hsome : (t.node q).isSome := by
      obtain ⟨r, rfl⟩ := (List.mem_inits _ _).1 hq
      rcases eq_or_ne r [] with rfl | hr
      · rwa [List.append_nil] at h
      · obtain ⟨w, hw, -⟩ := isFolder_iff.1 (isFolder_of_below hr h)
        exact Option.isSome_iff_exists.2 ⟨w, node_eq_some.2 hw⟩
    obtain ⟨w, hw⟩ := Option.isSome_iff_exists.1 hsome
    exact List.mem_map_of_mem (node_eq_some.1 hw)
  have hle := (List.subperm_of_subset hnodup hsub).length_le
  rwa [List.length_inits, List.length_map] at hle

section Insert

/-- A node in a folder, at a name that is free. -/
def insert (t : PathTree κ α folder) (p : List κ) (v : α) : Option (PathTree κ α folder) :=
  if h : p ≠ [] ∧ t.isFolder p.dropLast = true ∧ t.node p = none then
    some
      { entries := t.entries ++ [(p, v)]
        nodup := by
          rw [List.map_append, List.nodup_append]
          refine ⟨t.nodup, List.nodup_singleton _, fun a ha b hb => ?_⟩
          obtain ⟨e, he, rfl⟩ := List.mem_map.1 ha
          obtain rfl := List.mem_singleton.1 hb
          exact lookup_eq_none.1 h.2.2 e he
        closed := by
          intro q n w hq
          rcases List.mem_append.1 hq with hq | hq
          · obtain ⟨u, hu, hfolder⟩ := t.closed q n w hq
            exact ⟨u, List.mem_append_left _ hu, hfolder⟩
          · obtain ⟨hp, rfl⟩ := Prod.mk.inj (List.mem_singleton.1 hq)
            obtain ⟨u, hu, hfolder⟩ := isFolder_iff.1 h.2.1
            rw [← hp, List.dropLast_concat] at hu
            exact ⟨u, List.mem_append_left _ hu, hfolder⟩ }
  else none

theorem insert_eq_some (h : t.insert p v = some t') :
    p ≠ [] ∧ t.isFolder p.dropLast = true ∧ t.node p = none ∧
      t'.entries = t.entries ++ [(p, v)] := by
  unfold insert at h
  split_ifs at h with hp
  obtain rfl := Option.some.inj h
  exact ⟨hp.1, hp.2.1, hp.2.2, rfl⟩

theorem node_insert (h : t.insert p v = some t') (s : List κ) :
    t'.node s = if s = p then some v else t.node s := by
  obtain ⟨-, -, hnone, hentries⟩ := insert_eq_some h
  split_ifs with hs
  · subst hs
    rw [node_eq_some, hentries]
    simp
  · ext w
    rw [node_eq_some, node_eq_some, hentries]
    simp [hs]

end Insert

section Remove

/-- A tree without what is at a path and below it. -/
def remove (t : PathTree κ α folder) (p : List κ) : PathTree κ α folder where
  entries := t.entries.filter fun e => ¬p <+: e.1
  nodup := t.nodup.sublist (List.filter_sublist.map _)
  closed := by
    intro q n v hq
    obtain ⟨hmem, hp⟩ := List.mem_filter.1 hq
    obtain ⟨w, hw, hfolder⟩ := t.closed q n v hmem
    refine ⟨w, List.mem_filter.2 ⟨hw, ?_⟩, hfolder⟩
    simp only [decide_eq_true_eq] at hp ⊢
    exact fun hpre => hp (hpre.trans (List.prefix_append q [n]))

theorem node_remove (s : List κ) : (t.remove p).node s = if p <+: s then none else t.node s := by
  split_ifs with h
  · by_contra hne
    obtain ⟨v, hv⟩ := Option.ne_none_iff_exists'.1 hne
    have hmem := (List.mem_filter.1 (node_eq_some.1 hv)).2
    simp [h] at hmem
  · rcases hs : t.node s with _ | v
    · by_contra hne
      obtain ⟨v, hv⟩ := Option.ne_none_iff_exists'.1 hne
      rw [node_eq_some.2 (List.mem_filter.1 (node_eq_some.1 hv)).1] at hs
      cases hs
    · rw [node_eq_some] at hs ⊢
      exact List.mem_filter.2 ⟨hs, by simpa using h⟩

theorem length_remove_lt (h : (t.node p).isSome) :
    (t.remove p).entries.length < t.entries.length := by
  obtain ⟨v, hv⟩ := Option.isSome_iff_exists.1 h
  refine List.length_filter_lt_length_iff_exists.2 ⟨(p, v), node_eq_some.1 hv, ?_⟩
  simp

end Remove

section Move

/-- The path of a node when what is at `p` is moved to `q`. -/
def moved (p q k : List κ) : List κ := if p <+: k then q ++ k.drop p.length else k

theorem moved_inj {k k' : List κ} (hk : ¬q <+: k) (hk' : ¬q <+: k')
    (h : moved p q k = moved p q k') : k = k' := by
  unfold moved at h
  split_ifs at h with hp hp'
  · obtain ⟨r, rfl⟩ := hp
    obtain ⟨r', rfl⟩ := hp'
    simpa using h
  · exact absurd ⟨_, h⟩ hk'
  · exact absurd ⟨_, h.symm⟩ hk
  · exact h

theorem moved_append (r : List κ) : moved p q (p ++ r) = q ++ r := by
  rw [moved, if_pos (List.prefix_append p r), List.drop_left]

/-- What is moved still has a folder around it. -/
theorem exists_moved {a k : List κ} {n : κ} (hq : q ≠ []) (hp : ¬p <+: q)
    (hparent : t.isFolder q.dropLast = true) (hk : (k, v) ∈ t.entries) (hkq : ¬q <+: k)
    (h : moved p q k = a ++ [n]) :
    ∃ k' w, (k', w) ∈ t.entries ∧ ¬q <+: k' ∧ moved p q k' = a ∧ folder w = true := by
  by_cases hpk : p <+: k
  · obtain ⟨r, rfl⟩ := hpk
    rw [moved_append] at h
    rcases r.eq_nil_or_concat with rfl | ⟨r, m, rfl⟩
    · -- the parent of what is moved is the one of the new path
      rw [List.append_nil] at h
      subst h
      rw [List.dropLast_concat] at hparent
      obtain ⟨w, hw, hfolder⟩ := isFolder_iff.1 hparent
      refine ⟨a, w, hw, fun hpre => absurd hpre.length_le (by simp), if_neg fun hpre => ?_, hfolder⟩
      exact hp (hpre.trans (List.prefix_append a [n]))
    · rw [List.concat_eq_append, ← List.append_assoc] at h hk hkq
      obtain ⟨rfl, -⟩ := List.append_inj' h rfl
      obtain ⟨w, hw, hfolder⟩ := t.closed _ _ _ hk
      exact ⟨p ++ r, w, hw, fun hpre => hkq (hpre.trans (List.prefix_append _ _)),
        moved_append r, hfolder⟩
  · rw [moved, if_neg hpk] at h
    subst h
    obtain ⟨w, hw, hfolder⟩ := t.closed _ _ _ hk
    exact ⟨a, w, hw, fun hpre => hkq (hpre.trans (List.prefix_append _ _)),
      if_neg fun hpre => hpk (hpre.trans (List.prefix_append _ _)), hfolder⟩

/-- What is at a path is put at another one, whose place is free, or an empty folder. -/
def move (t : PathTree κ α folder) (p q : List κ) : Option (PathTree κ α folder) :=
  if h : q ≠ [] ∧ ¬p <+: q ∧ t.isFolder q.dropLast = true ∧ (t.node p).isSome ∧
      (t.node q = none ∨ t.isFolder q = true ∧ t.entries.all fun e => ¬Below q e.1) then
    some
      { entries := (t.remove q).entries.map fun e => (moved p q e.1, e.2)
        nodup := by
          rw [List.map_map]
          refine List.Nodup.map_on ?_ (t.remove q).entries_nodup
          rintro ⟨k, v⟩ hk ⟨k', v'⟩ hk' heq
          have hq := (List.mem_filter.1 hk).2
          have hq' := (List.mem_filter.1 hk').2
          simp only [decide_eq_true_eq] at hq hq'
          obtain rfl := moved_inj hq hq' heq
          have hv := node_eq_some.2 hk
          rw [node_eq_some.2 hk'] at hv
          rw [Option.some.inj hv]
        closed := by
          intro a n v ha
          obtain ⟨⟨k, v⟩, hk, heq⟩ := List.mem_map.1 ha
          obtain ⟨hpath, rfl⟩ := Prod.mk.inj heq
          obtain ⟨hmem, hkq⟩ := List.mem_filter.1 hk
          simp only [decide_eq_true_eq] at hkq
          obtain ⟨k', w, hw, hkq', rfl, hfolder⟩ :=
            exists_moved h.1 h.2.1 h.2.2.1 hmem hkq hpath
          refine ⟨w, List.mem_map.2 ⟨(k', w), List.mem_filter.2 ⟨hw, ?_⟩, rfl⟩, hfolder⟩
          simpa using hkq' }
  else none

end Move

section Names

/-- The names in a folder. -/
def names (t : PathTree κ α folder) (p : List κ) : List κ :=
  t.entries.filterMap fun e => if e.1.dropLast = p then e.1.getLast? else none

theorem mem_names {n : κ} : n ∈ t.names p ↔ (t.node (p ++ [n])).isSome := by
  rw [Option.isSome_iff_exists]
  simp only [names, List.mem_filterMap, node_eq_some]
  constructor
  · rintro ⟨⟨s, v⟩, he, h⟩
    split_ifs at h with hs
    obtain ⟨r, rfl⟩ := List.getLast?_eq_some_iff.1 h
    rw [List.dropLast_concat] at hs
    exact ⟨v, hs ▸ he⟩
  · rintro ⟨v, he⟩
    exact ⟨(p ++ [n], v), he, by simp⟩

theorem names_nodup (t : PathTree κ α folder) (p : List κ) : (t.names p).Nodup := by
  have hnodup := t.nodup
  unfold names
  rw [List.Nodup, List.pairwise_map] at hnodup
  refine (List.pairwise_filterMap).2 (hnodup.imp ?_)
  intro e e' hne n hn n' hn' heq
  split_ifs at hn hn' with hp hp'
  obtain ⟨r, hr⟩ := List.getLast?_eq_some_iff.1 hn
  obtain ⟨r', hr'⟩ := List.getLast?_eq_some_iff.1 hn'
  rw [hr, List.dropLast_concat] at hp
  rw [hr', List.dropLast_concat] at hp'
  exact hne (by rw [hr, hr', hp, hp', heq])

end Names

section Weigh

/-- What the nodes below a path weigh. -/
def weigh (t : PathTree κ α folder) (g : α → ℕ) (p : List κ) : ℕ :=
  ((t.entries.filter fun e => Below p e.1).map fun e => g e.2).sum

variable {g : α → ℕ}

/-- What is taken out weighs nothing. -/
theorem weigh_remove_le (q : List κ) : (t.remove q).weigh g p ≤ t.weigh g p :=
  ((List.filter_sublist.filter _).map _).sum_le_sum fun _ _ => Nat.zero_le _

theorem weigh_insert (h : t.insert p v = some t') (q : List κ) :
    t'.weigh g q = t.weigh g q + if Below q p then g v else 0 := by
  rw [weigh, (insert_eq_some h).2.2.2, List.filter_append, List.map_append, List.sum_append]
  congr 1
  split_ifs with hb <;> simp [hb]

/-- Nothing is below what is no folder. -/
theorem weigh_of_not_folder (h : t.isFolder p = false) : t.weigh g p = 0 := by
  rw [weigh, List.filter_eq_nil_iff.2]
  · rfl
  · intro e he
    simp only [decide_eq_true_eq]
    intro hb
    have hnone := node_below h hb
    rw [node_eq_some.2 he] at hnone
    cases hnone

/-- The weight of a part is the same in trees that agree on it. -/
theorem weigh_congr (h : ∀ s, Below p s → t'.node s = t.node s) : t'.weigh g p = t.weigh g p := by
  refine (List.Perm.map _ ?_).sum_eq
  refine (List.perm_ext_iff_of_nodup ((t'.nodup.of_map _).filter _)
    ((t.nodup.of_map _).filter _)).2 ?_
  rintro ⟨s, v⟩
  simp only [List.mem_filter, decide_eq_true_eq]
  refine and_congr_left fun hb => ?_
  rw [← node_eq_some, ← node_eq_some, h s hb]

/-- What is at a path and below it. -/
theorem weigh_at (q : List κ) :
    ((t.entries.filter fun e => q <+: e.1).map fun e => g e.2).sum =
      (t.node q).elim 0 g + t.weigh g q := by
  have hperm : (t.entries.filter fun e => q <+: e.1).Perm
      ((t.node q).toList.map (fun v => (q, v)) ++ t.entries.filter fun e => Below q e.1) := by
    refine (List.perm_ext_iff_of_nodup (t.entries_nodup.filter _) ?_).2 ?_
    · refine List.nodup_append.2 ⟨?_, t.entries_nodup.filter _, ?_⟩
      · rcases t.node q with _ | v <;> simp
      · rintro ⟨s, v⟩ hs ⟨s', v'⟩ hs' ⟨⟩
        obtain ⟨u, -, hu⟩ := List.mem_map.1 hs
        obtain ⟨rfl, -⟩ := Prod.mk.inj hu
        have hb := (List.mem_filter.1 hs').2
        exact (of_decide_eq_true hb).2 rfl
    · rintro ⟨s, v⟩
      simp only [List.mem_filter, List.mem_append, List.mem_map, Option.mem_toList,
        node_eq_some, Prod.mk.injEq, decide_eq_true_eq]
      constructor
      · rintro ⟨he, hq⟩
        by_cases hs : q = s
        · subst hs
          exact .inl ⟨v, he, rfl, rfl⟩
        · exact .inr ⟨he, hq, hs⟩
      · rintro (⟨u, hu, rfl, rfl⟩ | ⟨he, hq, -⟩)
        · exact ⟨hu, List.prefix_rfl⟩
        · exact ⟨he, hq⟩
  rw [(hperm.map _).sum_eq, List.map_append, List.sum_append]
  congr 1
  rcases t.node q with _ | v <;> simp

/-- What is below a folder weighs what its children do, with what is below them. -/
theorem weigh_children {names : List κ} (hnodup : names.Nodup)
    (hnames : ∀ n, n ∈ names ↔ (t.node (p ++ [n])).isSome) :
    t.weigh g p =
      (names.map fun n => (t.node (p ++ [n])).elim 0 g + t.weigh g (p ++ [n])).sum := by
  have hperm : (t.entries.filter fun e => Below p e.1).Perm
      (names.flatMap fun n => t.entries.filter fun e => p ++ [n] <+: e.1) := by
    refine (List.perm_ext_iff_of_nodup (t.entries_nodup.filter _) ?_).2 ?_
    · refine List.nodup_flatMap.2 ⟨fun n _ => t.entries_nodup.filter _, ?_⟩
      refine hnodup.pairwise_of_forall_ne ?_
      intro n _ m _ hne e hn hm
      simp only [List.mem_filter, decide_eq_true_eq] at hn hm
      exact hne (child_unique hn.2 hm.2)
    · rintro ⟨s, v⟩
      simp only [List.mem_filter, List.mem_flatMap, decide_eq_true_eq, below_iff]
      constructor
      · rintro ⟨he, n, hn⟩
        refine ⟨n, (hnames n).2 ?_, he, hn⟩
        obtain ⟨r, rfl⟩ := hn
        have hsome : (t.node (p ++ [n] ++ r)).isSome := by
          rw [node_eq_some.2 he]
          rfl
        rcases r with _ | ⟨m, r⟩
        · rwa [List.append_nil] at hsome
        · have hfolder := isFolder_of_below (List.cons_ne_nil m r) hsome
          unfold isFolder at hfolder
          rcases hnode : t.node (p ++ [n]) with _ | w
          · rw [hnode] at hfolder
            cases hfolder
          · rfl
      · rintro ⟨n, -, he, hn⟩
        exact ⟨he, n, hn⟩
  rw [weigh, (hperm.map _).sum_eq, List.map_flatMap, List.flatMap_def, List.sum_flatten,
    List.map_map]
  exact congrArg List.sum (List.map_congr_left fun n _ => weigh_at (p ++ [n]))

end Weigh

end PathTree
