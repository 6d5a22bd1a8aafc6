import LatteWork.Lib.Program
import LatteWork.Lib.Runs

/-!
# Machines that answer

A machine takes one input after another and answers each with a list of outputs, or fails. Its
owner puts up with the failure of some inputs and uses the machine on; after any other failure it
takes nothing more. What is said of such a machine is said of the inputs it took, with its answers.
-/

namespace Machine

variable {σ ι α ε : Type}

/-- A machine in use: its state, whether it has ended, and what it took. -/
structure Life (σ ι α : Type) where
  state : σ
  ended : Bool := false
  log : List (ι × List α) := []

/-- One input. -/
def take (advance : ι → Prog σ ε (List α)) (lenient : ι → Bool) (l : Life σ ι α) (i : ι) :
    Life σ ι α :=
  if l.ended then l
  else
    match (advance i).run l.state with
    | (.ok out, t) => { l with state := t, log := l.log ++ [(i, out)] }
    | (.error _, t) => { l with state := t, ended := !lenient i }

/-- The inputs of a list, one after the other. -/
def run (advance : ι → Prog σ ε (List α)) (lenient : ι → Bool) (s : σ) (inputs : List ι) :
    Life σ ι α :=
  Runs.run (take advance lenient) { state := s } inputs

/-- Every input that reaches the machine meets a condition. -/
def Served (advance : ι → Prog σ ε (List α)) (lenient : ι → Bool) (C : σ → ι → Bool) (s : σ)
    (inputs : List ι) : Prop :=
  Runs.Throughout (take advance lenient) (fun l i => (l.ended || C l.state i) = true) { state := s }
    inputs

variable {advance : ι → Prog σ ε (List α)} {lenient : ι → Bool} {C : σ → ι → Bool}

instance (s : σ) (inputs : List ι) : Decidable (Served advance lenient C s inputs) :=
  inferInstanceAs (Decidable (Runs.Throughout ..))

/-- The state a machine was in when it last took an input. -/
def Reached (P : σ → List (ι × List α) → Prop) (l : Life σ ι α) : Prop :=
  ∃ s, P s l.log ∧ (l.ended = false → l.state = s)

/-- An entry of a log is the last one, or one before it. -/
theorem entry_cases {β : Type} {log before after : List β} {e e' : β}
    (h : log ++ [e] = before ++ e' :: after) :
    (before = log ∧ e' = e ∧ after = []) ∨ ∃ rest, after = rest ++ [e] ∧ log = before ++ e' :: rest := by
  rcases List.eq_nil_or_concat after with rfl | ⟨rest, e'', rfl⟩
  · obtain ⟨h₁, h₂⟩ := List.append_inj' h rfl
    exact .inl ⟨h₁.symm, (List.singleton_inj.1 h₂).symm, rfl⟩
  · rw [List.concat_eq_append, ← List.cons_append, ← List.append_assoc] at h
    obtain ⟨h₁, h₂⟩ := List.append_inj' h rfl
    rw [List.singleton_inj.1 h₂]
    exact .inr ⟨rest, List.concat_eq_append, h₁⟩

/-- One input keeps what the accepted inputs keep, and the refused ones that are put up with. -/
theorem take_keeps {P : σ → List (ι × List α) → Prop} {l : Life σ ι α} {i : ι} (hl : Reached P l)
    (next : ∀ out t, P l.state l.log → l.ended = false → (advance i).run l.state = (.ok out, t) →
      P t (l.log ++ [(i, out)]))
    (refused : ∀ e t, lenient i = true → P l.state l.log → l.ended = false →
      (advance i).run l.state = (.error e, t) → P t l.log) :
    Reached P (take advance lenient l i) := by
  obtain ⟨s, hs, hlive⟩ := hl
  by_cases hend : l.ended = true
  · rw [take, if_pos hend]
    exact ⟨s, hs, hlive⟩
  · rw [Bool.not_eq_true] at hend
    obtain rfl : l.state = s := hlive hend
    rw [take, if_neg (by simp [hend])]
    rcases hrun : (advance i).run l.state with ⟨e | out, t⟩
    · cases hlen : lenient i
      · exact ⟨l.state, hs, fun h => by simp at h⟩
      · exact ⟨t, refused e t hlen hs hend hrun, fun _ => rfl⟩
    · exact ⟨t, next out t hs hend hrun, fun _ => rfl⟩

/-- The invariant rule, for what holds of the state and the log: accepted inputs keep it, and so do
the refused ones that are put up with. -/
theorem run_keeps {P : σ → List (ι × List α) → Prop} {s : σ} {inputs : List ι} (start : P s [])
    (next : ∀ a log i out t, P a log → C a i = true → (advance i).run a = (.ok out, t) →
      P t (log ++ [(i, out)]))
    (refused : ∀ a log i e t, lenient i = true → P a log → C a i = true →
      (advance i).run a = (.error e, t) → P t log)
    (hC : Served advance lenient C s inputs) : Reached P (run advance lenient s inputs) := by
  refine Runs.throughout_keeps (P := Reached P) (fun l i hl hi => ?_) ⟨s, start, fun _ => rfl⟩ hC
  have hi : l.ended = false → C l.state i = true := fun hend => by simpa [hend] using hi
  exact take_keeps hl (fun _ _ h hend hrun => next _ _ _ _ _ h (hi hend) hrun)
    fun _ _ hlen h hend hrun => refused _ _ _ _ _ hlen h (hi hend) hrun

/-- The invariant rule for a machine that asks nothing of its inputs. -/
theorem run_invariant {P : σ → List (ι × List α) → Prop} {s : σ} (start : P s [])
    (next : ∀ a log i out t, P a log → (advance i).run a = (.ok out, t) → P t (log ++ [(i, out)]))
    (refused : ∀ a log i e t, lenient i = true → P a log → (advance i).run a = (.error e, t) →
      P t log) (inputs : List ι) : Reached P (run advance lenient s inputs) :=
  Runs.run_keeps (P := Reached P) ⟨s, start, fun _ => rfl⟩
    (fun _ _ hl => take_keeps hl (fun _ _ h _ hrun => next _ _ _ _ _ h hrun)
      fun _ _ hlen h _ hrun => refused _ _ _ _ _ hlen h hrun) inputs

/-- A machine whose failures are all put up with does not end. -/
theorem run_lives {s : σ} {inputs : List ι} :
    (run advance (fun _ => true) s inputs).ended = false := by
  refine Runs.run_keeps (P := fun l : Life σ ι α => l.ended = false) rfl (fun l i hl => ?_) inputs
  rw [take, if_neg (by simp [hl])]
  rcases (advance i).run l.state with ⟨_ | _, _⟩
  · rfl
  · exact hl

/-! ## Traces -/

/-- An input that is taken, with the state it finds. -/
def taken (advance : ι → Prog σ ε (List α)) (l : Life σ ι α) (i : ι) : List (σ × ι × List α) :=
  if l.ended then []
  else
    match (advance i).run l.state with
    | (.ok out, _) => [(l.state, i, out)]
    | (.error _, _) => []

/-- What a machine takes of a list of inputs, each with the state it finds. -/
def trace (advance : ι → Prog σ ε (List α)) (lenient : ι → Bool) :
    Life σ ι α → List ι → List (σ × ι × List α)
  | _, [] => []
  | l, i :: rest => taken advance l i ++ trace advance lenient (take advance lenient l i) rest

/-- The invariant rule, for what holds of the state and the trace that led there. -/
theorem trace_keeps {P : σ → List (σ × ι × List α) → Prop}
    (next : ∀ a tr i out t, P a tr → C a i = true → (advance i).run a = (.ok out, t) →
      P t (tr ++ [(a, i, out)]))
    (refused : ∀ a tr i e t, lenient i = true → P a tr → C a i = true →
      (advance i).run a = (.error e, t) → P t tr) :
    ∀ {inputs : List ι} {l : Life σ ι α} {tr : List (σ × ι × List α)},
      (∃ s, P s tr ∧ (l.ended = false → l.state = s)) →
      Runs.Throughout (take advance lenient) (fun l i => (l.ended || C l.state i) = true) l inputs →
      ∃ s, P s (tr ++ trace advance lenient l inputs) ∧
        ((Runs.run (take advance lenient) l inputs).ended = false →
          (Runs.run (take advance lenient) l inputs).state = s)
  | [], l, tr, h, _ => by rwa [trace, List.append_nil]
  | i :: inputs, l, tr, ⟨s, hs, hlive⟩, hC => by
    obtain ⟨hi, hrest⟩ := hC
    have hnow : ∃ s', P s' (tr ++ taken advance l i) ∧
        ((take advance lenient l i).ended = false → (take advance lenient l i).state = s') := by
      unfold taken take
      by_cases hend : l.ended = true
      · rw [if_pos hend, if_pos hend, List.append_nil]
        exact ⟨s, hs, hlive⟩
      · rw [Bool.not_eq_true] at hend
        rw [if_neg (by simp [hend]), if_neg (by simp [hend])]
        obtain rfl : l.state = s := hlive hend
        have hi : C l.state i = true := by simpa [hend] using hi
        rcases hrun : (advance i).run l.state with ⟨e | out, t⟩
        · rw [List.append_nil]
          cases hlen : lenient i
          · exact ⟨l.state, hs, fun h => by simp at h⟩
          · exact ⟨t, refused _ _ _ _ _ hlen hs hi hrun, fun _ => rfl⟩
        · exact ⟨t, next _ _ _ _ _ hs hi hrun, fun _ => rfl⟩
    obtain ⟨s', hs', hlive'⟩ := trace_keeps next refused hnow hrest
    rw [trace, ← List.append_assoc]
    exact ⟨s', hs', hlive'⟩

end Machine
