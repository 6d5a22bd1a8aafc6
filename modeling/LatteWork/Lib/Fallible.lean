import Mathlib.Data.List.Basic
import Mathlib.Data.Nat.Notation

/-!
# Fallible computations

`Except` as the result type of a computation that may stop with an error: how to read a
successful run of a `do` block back, statement by statement, and a fold whose body may fail.
-/

namespace Fallible

variable {ε α β σ : Type}

/-- Stop with an error when the condition holds: `if c { bail!(e) }`. -/
def bailIf (c : Prop) [Decidable c] (e : ε) : Except ε Unit :=
  if c then .error e else .ok ()

/-- The value of an option, or an error: `opt.context(e)?`. -/
def orError (e : ε) : Option α → Except ε α
  | none => .error e
  | some a => .ok a

@[simp]
theorem bind_eq_ok {x : Except ε α} {f : α → Except ε β} {b : β} :
    (x >>= f) = .ok b ↔ ∃ a, x = .ok a ∧ f a = .ok b := by
  cases x <;> simp [bind, Except.bind]

@[simp]
theorem map_eq_ok {x : Except ε α} {f : α → β} {b : β} :
    x.map f = .ok b ↔ ∃ a, x = .ok a ∧ f a = b := by
  cases x <;> simp [Except.map]

@[simp]
theorem bailIf_eq_ok {c : Prop} [Decidable c] {e : ε} {u : Unit} :
    bailIf c e = .ok u ↔ ¬c := by
  unfold bailIf
  split <;> simp_all

@[simp]
theorem orError_eq_ok {e : ε} {o : Option α} {a : α} : orError e o = .ok a ↔ o = some a := by
  cases o <;> simp [orError]

@[simp]
theorem pure_eq_ok {a b : α} : (pure a : Except ε α) = .ok b ↔ a = b := by
  simp [pure, Except.pure]

theorem bailIf_error {c : Prop} [Decidable c] {e : ε} (h : c) {f : Unit → Except ε β} :
    (bailIf c e >>= f) = .error e := by
  simp [bailIf, h, bind, Except.bind]

theorem bailIf_pass {c : Prop} [Decidable c] {e : ε} (h : ¬c) {f : Unit → Except ε β} :
    (bailIf c e >>= f) = f () := by
  simp [bailIf, h, bind, Except.bind]

/-- A loop without a result passes when each of its turns does. -/
theorem forM_eq_ok {f : α → Except ε Unit} {u : Unit} :
    ∀ {l : List α}, l.forM f = .ok u ↔ ∀ a ∈ l, f a = .ok ()
  | [] => by simp [List.forM]
  | a :: l => by
    have ih := forM_eq_ok (f := f) (u := u) (l := l)
    rw [List.forM, bind_eq_ok, List.forall_mem_cons]
    constructor
    · rintro ⟨_, ha, hl⟩
      exact ⟨ha, ih.1 hl⟩
    · rintro ⟨ha, hl⟩
      exact ⟨(), ha, ih.2 hl⟩

/-- What every step of a fold keeps, the fold keeps. -/
theorem foldlM_keeps {f : σ → α → Except ε σ} {P : σ → Prop} :
    ∀ (l : List α) (_ : ∀ s, ∀ a ∈ l, ∀ s', P s → f s a = .ok s' → P s') (s s' : σ), P s →
      l.foldlM f s = .ok s' → P s'
  | [], _, s, s', hP, h => by
    simp only [List.foldlM_nil, pure_eq_ok] at h
    exact h ▸ hP
  | a :: l, hf, s, s', hP, h => by
    simp only [List.foldlM_cons, bind_eq_ok] at h
    obtain ⟨s₁, h₁, h⟩ := h
    exact foldlM_keeps l (fun s b hb => hf s b (List.mem_cons_of_mem _ hb)) s₁ s'
      (hf s a List.mem_cons_self s₁ hP h₁) h

/-- A fold whose steps succeed wherever `P` holds, and keep `P`, succeeds. -/
theorem foldlM_succeeds {f : σ → α → Except ε σ} {P : σ → Prop} :
    ∀ (l : List α) (_ : ∀ s, ∀ a ∈ l, P s → ∃ s', f s a = .ok s' ∧ P s') (s : σ), P s →
      ∃ s', l.foldlM f s = .ok s' ∧ P s'
  | [], _, s, hP => ⟨s, rfl, hP⟩
  | a :: l, hf, s, hP => by
    obtain ⟨s₁, h₁, hP₁⟩ := hf s a List.mem_cons_self hP
    obtain ⟨s', h', hP'⟩ :=
      foldlM_succeeds l (fun s b hb => hf s b (List.mem_cons_of_mem _ hb)) s₁ hP₁
    exact ⟨s', by simp only [List.foldlM_cons, bind_eq_ok]; exact ⟨s₁, h₁, h'⟩, hP'⟩

end Fallible
