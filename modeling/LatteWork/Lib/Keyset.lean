import Mathlib.Data.List.Sort
import Mathlib.Data.Nat.Notation
import Mathlib.Order.Defs.LinearOrder

/-!
# Keyset paging

Rows with distinct keys, listed from the greatest key down. A page is asked for with the key of the
last row that came, and holds the next rows below it. Following the keys lists every row once.
-/

namespace Keyset

variable {α κ : Type*} [LinearOrder κ] (key : α → κ)

/-- The rows below a key. -/
def below (rows : List α) : Option κ → List α
  | none => rows
  | some k => rows.filter fun a => key a < k

/-- A page of at most `size` rows, and the key to go on from when there are more. -/
def page (size : ℕ) (rows : List α) (k : Option κ) : List α × Option κ :=
  let listed := below key rows k
  if size < listed.length then
    (listed.take size, (listed.take size).getLast?.map key)
  else (listed, none)

/-- Ask for pages until one comes without a key, at most `fuel` times. -/
def follow {ε : Type*} (page : Option κ → Except ε (List α × Option κ)) :
    ℕ → Option κ → Option (List α)
  | 0, _ => none
  | fuel + 1, k =>
    match page k with
    | .error _ => none
    | .ok (rows, none) => some rows
    | .ok (rows, some k) => (follow page fuel (some k)).map (rows ++ ·)

variable {key} {rows : List α}

/-- From the greatest key down. -/
abbrev Descending (key : α → κ) (rows : List α) : Prop := rows.Pairwise fun a b => key b < key a

/-- Behind the last row of a front are the rows below its key. -/
theorem below_of_split {front rest : List α} {a : α} (h : Descending key (front ++ a :: rest)) :
    (front ++ a :: rest).filter (fun b => key b < key a) = rest := by
  obtain ⟨-, hrest, hcross⟩ := List.pairwise_append.1 h
  rw [List.filter_append, List.filter_cons_of_neg (by simp)]
  have hfront : front.filter (fun b => key b < key a) = [] := by
    refine List.filter_eq_nil_iff.2 fun b hb => ?_
    have := hcross b hb a List.mem_cons_self
    simpa using this.le
  rw [hfront, List.nil_append, List.filter_eq_self]
  exact fun b hb => decide_eq_true ((List.pairwise_cons.1 hrest).1 b hb)

/-- The rows below the last key of a page are those the page left. -/
theorem below_next (h : Descending key rows) {size : ℕ} {k : Option κ} {next : κ}
    (hp : (page key size rows k).2 = some next) :
    (page key size rows k).1 ++ below key rows (some next) = below key rows k ∧
      (below key rows (some next)).length < (below key rows k).length := by
  have hd : Descending key (below key rows k) := by
    cases k with
    | none => exact h
    | some k => exact h.filter _
  unfold page at hp ⊢
  dsimp only at hp ⊢
  split at hp
  · rename_i hlt
    rw [if_pos hlt]
    obtain ⟨a, hlast, rfl⟩ := Option.map_eq_some_iff.1 hp
    obtain ⟨front, hfront⟩ := List.getLast?_eq_some_iff.1 hlast
    have hsplit : below key rows k = front ++ a :: (below key rows k).drop size := by
      conv_lhs => rw [← List.take_append_drop size (below key rows k), hfront]
      simp
    have hbelow : below key rows (some (key a)) = (below key rows k).drop size := by
      have hcut := below_of_split (hsplit ▸ hd)
      rw [← hsplit] at hcut
      rw [← hcut]
      cases k with
      | none => rfl
      | some k =>
        have ha : key a < k := by
          have hmem : a ∈ below key rows (some k) := by rw [hsplit]; simp
          simpa using (List.mem_filter.1 hmem).2
        simp only [below, List.filter_filter]
        refine List.filter_congr fun b _ => ?_
        rw [Bool.eq_iff_iff]
        simp only [decide_eq_true_eq, Bool.and_eq_true]
        exact ⟨fun hb => ⟨hb, hb.trans ha⟩, fun hb => hb.1⟩
    refine ⟨?_, ?_⟩
    · rw [hbelow, List.take_append_drop]
    · have hlen := congrArg List.length hsplit
      rw [hbelow]
      simp only [List.length_append, List.length_cons] at hlen
      omega
  · cases hp

/-- Following the keys lists every row below the first, once and in order, and ends. -/
theorem follow_lists {ε : Type*} (h : Descending key rows) {size : ℕ} (hsize : 0 < size)
    {ask : Option κ → Except ε (List α × Option κ)} {P : Option κ → Prop}
    (hask : ∀ k, P k → ask k = .ok (page key size rows k))
    (hnext : ∀ k next, P k → (page key size rows k).2 = some next → P (some next)) :
    ∀ (fuel : ℕ) (k : Option κ), P k → (below key rows k).length < fuel →
      follow ask fuel k = some (below key rows k)
  | 0, _, _, hfuel => absurd hfuel (Nat.not_lt_zero _)
  | fuel + 1, k, hk, hfuel => by
    unfold follow
    rw [hask k hk]
    rcases hp : (page key size rows k) with ⟨listed, _ | next⟩
    · unfold page at hp
      dsimp only at hp
      split at hp
      · rename_i hlt
        obtain ⟨rfl, hlast⟩ := Prod.mk.inj hp
        rw [Option.map_eq_none_iff, List.getLast?_eq_none_iff, List.take_eq_nil_iff] at hlast
        rcases hlast with hlast | hlast
        · omega
        · simp [hlast] at hlt
      · rw [(Prod.mk.inj hp).1]
    · have hp2 : (page key size rows k).2 = some next := by rw [hp]
      obtain ⟨happend, hlen⟩ := below_next h hp2
      rw [hp] at happend
      simp only
      rw [follow_lists h hsize hask hnext fuel (some next) (hnext k next hk hp2) (by omega),
        Option.map_some, happend]

end Keyset
