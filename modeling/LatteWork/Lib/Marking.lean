import LatteWork.Lib.Fallible
import Mathlib.Data.Set.Basic

/-!
# Marking

The two halves of a collector that keeps what its roots read. A computation over a keyed store has
a footprint, the keys it reads: over a store that has lost other keys only, it gives the same
result. A marking pass gathers keys from one root after the other and stops at the first root it
cannot read.
-/

namespace Marking

open Fallible

section Footprint

variable {σ κ β γ : Type*} {δ δ' ε : Type} {view : σ → κ → Option β} {s s' : σ} {K L : Set κ}

/-- Two states have the same under every key of a set. -/
def Agree (view : σ → κ → Option β) (K : Set κ) (s s' : σ) : Prop := ∀ k ∈ K, view s' k = view s k

/-- In the state `s`, a computation reads at most the keys of `K`. -/
def Reads (view : σ → κ → Option β) (K : Set κ) (f : σ → γ) (s : σ) : Prop :=
  ∀ s', Agree view K s s' → f s' = f s

theorem Reads.mono {f : σ → γ} (h : Reads view K f s) (hKL : K ⊆ L) : Reads view L f s :=
  fun s' hs' => h s' fun k hk => hs' k (hKL hk)

theorem reads_const {c : γ} : Reads view K (fun _ => c) s := fun _ _ => rfl

/-- A computation that looks at one key, and at nothing else. -/
theorem reads_of_view {f : σ → γ} {k : κ} (h : ∀ s', view s' k = view s k → f s' = f s) :
    Reads view {k} f s :=
  fun s' hs' => h s' (hs' k rfl)

theorem Reads.bind {f : σ → Except ε δ} {g : δ → σ → Except ε δ'} (hf : Reads view K f s)
    (hg : ∀ a, f s = .ok a → Reads view K (g a) s) :
    Reads view K (fun s => f s >>= fun a => g a s) s := by
  intro s' hs'
  simp only [hf s' hs']
  rcases hfs : f s with e | a
  · rfl
  · exact hg a hfs s' hs'

end Footprint

section Gather

variable {κ ε α : Type} {r : Except ε (List κ)} {keys : List κ} {ok : Prop} {refs : κ → Prop}

/-- What a pass makes of the keys it has: if its root is readable it adds what the root refers to,
otherwise it fails. -/
def Gathers (r : Except ε (List κ)) (keys : List κ) (ok : Prop) (refs : κ → Prop) : Prop :=
  (ok ∧ ∃ keys', r = .ok keys' ∧ ∀ k, k ∈ keys' ↔ k ∈ keys ∨ refs k) ∨ (¬ok ∧ ∃ e, r = .error e)

theorem Gathers.congr {ok' : Prop} {refs' : κ → Prop} (h : Gathers r keys ok refs)
    (hok : ok ↔ ok') (hrefs : ∀ k, refs k ↔ refs' k) : Gathers r keys ok' refs' := by
  rcases h with ⟨h, keys', hr, hmem⟩ | ⟨h, he⟩
  · exact .inl ⟨hok.1 h, keys', hr, fun k => (hmem k).trans (or_congr_right (hrefs k))⟩
  · exact .inr ⟨mt hok.2 h, he⟩

theorem Gathers.bind {f : List κ → Except ε (List κ)} {ok' : Prop} {refs' : κ → Prop}
    (h : Gathers r keys ok refs) (hf : ∀ keys', Gathers (f keys') keys' ok' refs') :
    Gathers (r >>= f) keys (ok ∧ ok') fun k => refs k ∨ refs' k := by
  rcases h with ⟨hok, keys₁, rfl, hmem₁⟩ | ⟨hok, e, rfl⟩
  · rcases hf keys₁ with ⟨hok', keys₂, hr, hmem₂⟩ | ⟨hok', e, hr⟩
    · refine .inl ⟨⟨hok, hok'⟩, keys₂, hr, fun k => ?_⟩
      rw [hmem₂, hmem₁, or_assoc]
    · exact .inr ⟨fun h => hok' h.2, e, hr⟩
  · exact .inr ⟨fun h => hok h.1, e, rfl⟩

/-- A pass over a list of roots. -/
theorem gathers_foldlM {f : List κ → α → Except ε (List κ)} {ok : α → Prop} {refs : α → κ → Prop}
    (hf : ∀ keys a, Gathers (f keys a) keys (ok a) (refs a)) :
    ∀ (l : List α) (keys : List κ),
      Gathers (l.foldlM f keys) keys (∀ a ∈ l, ok a) fun k => ∃ a ∈ l, refs a k
  | [], keys => .inl ⟨fun _ ha => absurd ha List.not_mem_nil, keys, rfl, by simp⟩
  | a :: l, keys => by
    rw [List.foldlM_cons]
    exact ((hf keys a).bind fun keys' => gathers_foldlM hf l keys').congr (by simp) (by simp)

end Gather

end Marking
