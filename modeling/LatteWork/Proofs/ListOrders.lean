import LatteWork.Workbench.ListOrder

/-!
# Moves in a saved order

A move in the list that is shown is the same move in the saved order: what is shown after it is what
was shown with the item moved, and what is not shown keeps its place.
-/

namespace LatteWork

namespace ListOrder

variable {T : Type} {hosted : T → HostedItem} {items : List T} {previous order keys : List String}
variable {source target : String} {after : Bool}

/-- The keys of items, in their order. -/
def keysOf (hosted : T → HostedItem) (items : List T) : List String :=
  items.map fun item => itemOrderKey (hosted item)

/-- A map of items with distinct keys has them as they came. -/
theorem remaining_eq : ∀ {items : List T} {map : List (String × T)},
    (map.map (·.1) ++ keysOf hosted items).Nodup →
      items.foldl (fun map p => TaskInfo.set map (itemOrderKey (hosted p)) p) map =
        map ++ items.map fun p => (itemOrderKey (hosted p), p)
  | [], map, _ => by simp
  | item :: items, map, h => by
    have hnew : TaskInfo.has map (itemOrderKey (hosted item)) = false := by
      unfold TaskInfo.has
      rw [List.any_eq_false]
      intro entry hentry hkey
      refine (List.nodup_append.1 h).2.2 entry.1 (List.mem_map_of_mem hentry) _ List.mem_cons_self ?_
      simpa using hkey
    rw [List.foldl_cons, TaskInfo.set, hnew, if_neg Bool.false_ne_true, remaining_eq]
    · simp
    · simpa [keysOf] using h

/-- Each key of an order takes its item out of the rest. -/
theorem foldl_takeItem : ∀ {order : List String} {result : List T} {remaining : List (String × T)},
    order.Nodup → (remaining.map (·.1)).Nodup → (∀ e ∈ remaining, e.1 = itemOrderKey (hosted e.2)) →
      keysOf hosted (order.foldl takeItem (result, remaining)).1 =
        keysOf hosted result ++ order.filter (· ∈ remaining.map (·.1)) ∧
      (order.foldl takeItem (result, remaining)).2 = remaining.filter fun e => e.1 ∉ order
  | [], result, remaining, _, _, _ => by simp
  | key :: order, result, remaining, horder, hnodup, hkeys => by
    obtain ⟨hkey, horder⟩ := List.nodup_cons.1 horder
    rw [List.foldl_cons, takeItem]
    dsimp only
    split
    · rename_i item hitem
      have hmem := Assoc.mem_of_lookup hitem
      have hitemKey : itemOrderKey (hosted item) = key := (hkeys _ hmem).symm
      obtain ⟨hresult, hremaining⟩ := @foldl_takeItem order (result ++ [item])
        (Assoc.drop key remaining) horder (Assoc.nodup_drop hnodup) fun e he =>
          hkeys e (Assoc.mem_drop.1 he).1
      rw [hresult, hremaining]
      constructor
      · have hin : key ∈ remaining.map (·.1) := List.mem_map_of_mem hmem
        rw [List.filter_cons_of_pos (by simpa using hin)]
        have hrest : order.filter (· ∈ (Assoc.drop key remaining).map (·.1)) =
            order.filter (· ∈ remaining.map (·.1)) := by
          refine List.filter_congr fun k hk => ?_
          have hne : k ≠ key := fun h => hkey (h ▸ hk)
          rw [Assoc.keys_drop]
          simp [hne]
        rw [hrest]
        simp [keysOf, hitemKey]
      · unfold Assoc.drop
        rw [List.filter_filter]
        refine List.filter_congr fun e _ => ?_
        by_cases he : e.1 = key <;> simp [he]
    · rename_i hnone
      have hout : key ∉ remaining.map (·.1) := by
        intro hin
        obtain ⟨e, he, hek⟩ := List.mem_map.1 hin
        exact Assoc.lookup_eq_none.1 hnone e he hek
      obtain ⟨hresult, hremaining⟩ := @foldl_takeItem order result remaining horder hnodup hkeys
      rw [hresult, hremaining]
      constructor
      · rw [List.filter_cons_of_neg (by simpa using hout)]
      · refine List.filter_congr fun e he => ?_
        have hne : e.1 ≠ key := fun h => hout (h ▸ List.mem_map_of_mem he)
        simp [hne]

/-- Items come in a saved order, and the new ones behind it. -/
theorem keysOf_orderItems (horder : order.Nodup) (hitems : (keysOf hosted items).Nodup) :
    keysOf hosted (orderItems hosted items order) =
      order.filter (· ∈ keysOf hosted items) ++ (keysOf hosted items).filter (· ∉ order) := by
  have hmap : (items.map fun p => (itemOrderKey (hosted p), p)).map (·.1) = keysOf hosted items := by
    rw [List.map_map]
    rfl
  have hremaining := @remaining_eq T hosted items [] (by simpa using hitems)
  rw [List.nil_append] at hremaining
  obtain ⟨htaken, hrest⟩ := @foldl_takeItem T hosted order []
    (items.map fun p => (itemOrderKey (hosted p), p)) horder (by rwa [hmap]) fun e he => by
      obtain ⟨p, -, rfl⟩ := List.mem_map.1 he
      rfl
  unfold orderItems
  dsimp only
  rw [hremaining]
  unfold keysOf at htaken ⊢
  rw [List.map_append, htaken, hrest, List.map_nil, List.nil_append, hmap]
  congr 1
  rw [List.map_map, List.filter_map, List.filter_map, List.map_map]
  rfl

/-- Items with distinct keys are shown with distinct keys, each of them. -/
theorem nodup_orderItems (horder : order.Nodup) (hitems : (keysOf hosted items).Nodup) :
    (keysOf hosted (orderItems hosted items order)).Nodup := by
  rw [keysOf_orderItems horder hitems]
  refine List.nodup_append.2 ⟨horder.filter _, hitems.filter _, fun a ha b hb => ?_⟩
  rintro rfl
  have hnew : a ∉ order := by simpa using (List.mem_filter.1 hb).2
  exact hnew (List.mem_filter.1 ha).1

theorem mem_orderItems (horder : order.Nodup) (hitems : (keysOf hosted items).Nodup) {key : String} :
    key ∈ keysOf hosted (orderItems hosted items order) ↔ key ∈ keysOf hosted items := by
  rw [keysOf_orderItems horder hitems, List.mem_append, List.mem_filter, List.mem_filter]
  simp only [decide_eq_true_eq]
  tauto

/-- A move takes the source out and puts it in again. -/
theorem moveItemKeys_perm (hkeys : keys.Nodup) : (moveItemKeys keys source target after).Perm keys := by
  unfold moveItemKeys
  split
  · exact .refl keys
  · rename_i hsame
    obtain ⟨hne, hsource, htarget⟩ : source ≠ target ∧ source ∈ keys ∧ target ∈ keys := by tauto
    have hmem : target ∈ keys.filter (· ≠ source) := List.mem_filter.2 ⟨htarget, by simpa using hne.symm⟩
    have hlt := List.idxOf_lt_length_iff.2 hmem
    have hperm : ((keys.filter (· ≠ source)).insertIdx
        ((keys.filter (· ≠ source)).idxOf target + if after then 1 else 0) source).Perm keys := by
      refine (List.perm_insertIdx source _ (by split_ifs <;> omega)).trans ?_
      have herase : keys.filter (· ≠ source) = keys.erase source := by
        rw [hkeys.erase_eq_filter]
        refine List.filter_congr fun k _ => ?_
        by_cases hk : k = source <;> simp [hk]
      rw [herase]
      exact (List.perm_cons_erase hsource).symm
    dsimp only
    generalize (keys.filter (· ≠ source)).insertIdx _ source = next at hperm ⊢
    split
    · exact .refl keys
    · exact hperm

/-- A move in what is shown, and in what is saved. -/
theorem moveItemOrder_spec (hprevious : previous.Nodup) (hitems : (keysOf hosted items).Nodup)
    (source target : String) (after : Bool) :
    ∃ result, moveItemOrder hosted previous items source target after = some result ∧ result.Nodup ∧
      (∀ key ∈ previous, key ∈ result) ∧
      (result ≠ previous → ∀ key ∈ keysOf hosted items, key ∈ result) ∧
      (∀ (i : ℕ) key, previous[i]? = some key → key ∉ keysOf hosted items → result[i]? = some key) ∧
      keysOf hosted (orderItems hosted items result) =
        moveItemKeys (keysOf hosted (orderItems hosted items previous)) source target after ∧
      (moveItemKeys (keysOf hosted (orderItems hosted items previous)) source target after =
        keysOf hosted (orderItems hosted items previous) → result = previous) := by
  set keys := keysOf hosted (orderItems hosted items previous) with hkeys
  set next := moveItemKeys keys source target after with hnext
  have hmem (key : String) : key ∈ keys ↔ key ∈ keysOf hosted items := mem_orderItems hprevious hitems
  have hnodup : keys.Nodup := nodup_orderItems hprevious hitems
  have hperm : next.Perm keys := moveItemKeys_perm hnodup
  have horder : moveItemOrder hosted previous items source target after =
      if next = keys then some previous
      else (Slots.refill (fun key => decide (key ∈ keys)) previous next).map fun f => f.1 ++ f.2 := rfl
  by_cases hsame : next = keys
  · rw [if_pos hsame] at horder
    exact ⟨previous, horder, hprevious, fun _ h => h, fun h => absurd rfl h, fun _ _ h _ => h,
      hsame.symm, fun _ => rfl⟩
  · rw [if_neg hsame] at horder
    -- every visible key of the saved order is one of those that are shown
    have hcount : previous.countP (fun key => decide (key ∈ keys)) ≤ next.length := by
      rw [hperm.length_eq, List.countP_eq_length_filter]
      refine (List.subperm_of_subset (hprevious.filter _) fun key hkey => ?_).length_le
      simpa using (List.mem_filter.1 hkey).2
    obtain ⟨⟨front, rest⟩, hfill⟩ := Option.isSome_iff_exists.1 (Slots.refill_isSome hcount)
    rw [hfill] at horder
    have hvisible : ∀ key ∈ next, decide (key ∈ keys) = true := fun key hkey => by
      simpa using hperm.mem_iff.1 hkey
    have hshown := Slots.filter_refill hfill hvisible
    have hhidden := Slots.filter_not_refill hfill hvisible
    have hresult : (front ++ rest).Nodup := Slots.nodup_refill hfill hvisible hprevious (hperm.nodup_iff.2 hnodup)
    have hall (key : String) (hkey : key ∈ keys) : key ∈ front ++ rest := by
      rw [← hperm.mem_iff, ← hshown] at hkey
      exact (List.mem_filter.1 hkey).1
    refine ⟨front ++ rest, horder, hresult, fun key hkey => ?_, fun _ key hkey => hall key ((hmem key).2 hkey),
      fun i key hi hkey => ?_, ?_, fun h => absurd h hsame⟩
    · by_cases hin : key ∈ keys
      · exact hall key hin
      · have hold : key ∈ previous.filter fun a => !decide (a ∈ keys) := List.mem_filter.2 ⟨hkey, by simpa using hin⟩
        rw [← hhidden] at hold
        exact (List.mem_filter.1 hold).1
    · have hfront := Slots.refill_keeps hfill hi (by simpa using fun h => hkey ((hmem key).1 h))
      obtain ⟨hlt, -⟩ := List.getElem?_eq_some_iff.1 hfront
      rw [List.getElem?_append_left hlt]
      exact hfront
    · rw [keysOf_orderItems hresult hitems]
      have hnone : (keysOf hosted items).filter (· ∉ front ++ rest) = [] := by
        refine List.filter_eq_nil_iff.2 fun key hkey => ?_
        have hin := hall key ((hmem key).2 hkey)
        simpa only [decide_eq_true_eq, not_not] using hin
      rw [hnone, List.append_nil, ← hshown]
      refine List.filter_congr fun key _ => ?_
      rw [decide_eq_decide]
      exact (hmem key).symm

theorem moveItemOrder_spec_absent : ∃ result, moveItemOrder (T := HostedItem) id
      [itemOrderKey ⟨"local", "a"⟩, itemOrderKey ⟨"hidden", "x"⟩, itemOrderKey ⟨"local", "b"⟩]
      [⟨"local", "a"⟩, ⟨"local", "b"⟩, ⟨"devbox", "c"⟩]
      (itemOrderKey ⟨"local", "b"⟩) (itemOrderKey ⟨"local", "a"⟩) false = some result ∧ result.Nodup := by
  obtain ⟨result, hresult, hnodup, -⟩ := @moveItemOrder_spec HostedItem id
    [⟨"local", "a"⟩, ⟨"local", "b"⟩, ⟨"devbox", "c"⟩]
    [itemOrderKey ⟨"local", "a"⟩, itemOrderKey ⟨"hidden", "x"⟩, itemOrderKey ⟨"local", "b"⟩]
    (by decide +kernel) (by decide +kernel) (itemOrderKey ⟨"local", "b"⟩) (itemOrderKey ⟨"local", "a"⟩) false
  exact ⟨result, hresult, hnodup⟩

end ListOrder

end LatteWork
