import Mathlib.Data.List.Basic
import Mathlib.Data.List.Induction
import Mathlib.Data.Nat.Notation

/-!
# Runs

A system that takes one operation after another: its runs over a list of operations, the
invariant rule, and what a run emits on its way.
-/

namespace Runs

variable {σ ο β ε : Type*}

/-- One attempted operation: a refused one leaves the state as it was. -/
def attempt (apply : σ → ο → Except ε σ) (s : σ) (o : ο) : σ :=
  match apply s o with
  | .ok s' => s'
  | .error _ => s

theorem attempt_ok {apply : σ → ο → Except ε σ} {s s' : σ} {o : ο} (h : apply s o = .ok s') :
    attempt apply s o = s' := by
  simp [attempt, h]

theorem attempt_error {apply : σ → ο → Except ε σ} {s : σ} {o : ο} {e : ε}
    (h : apply s o = .error e) : attempt apply s o = s := by
  simp [attempt, h]

/-- What the accepted operations keep, every attempt keeps. -/
theorem attempt_keeps {apply : σ → ο → Except ε σ} {P : σ → Prop} {s : σ} {o : ο}
    (h : ∀ s', apply s o = .ok s' → P s') (hs : P s) : P (attempt apply s o) := by
  rcases ha : apply s o with e | s'
  · rwa [attempt_error ha]
  · rw [attempt_ok ha]
    exact h s' ha

/-- The state after a list of operations. -/
def run (step : σ → ο → σ) (s : σ) (ops : List ο) : σ := ops.foldl step s

variable {step : σ → ο → σ} {s : σ}

@[simp]
theorem run_nil : run step s [] = s := rfl

@[simp]
theorem run_concat (ops : List ο) (o : ο) : run step s (ops ++ [o]) = step (run step s ops) o := by
  simp [run]

theorem run_append (ops more : List ο) : run step s (ops ++ more) = run step (run step s ops) more :=
  List.foldl_append

/-- Induction on a run, the last operation taken off. -/
theorem run_induction {P : List ο → σ → Prop} (start : P [] s)
    (next : ∀ ops o, P ops (run step s ops) → P (ops ++ [o]) (step (run step s ops) o)) :
    ∀ ops, P ops (run step s ops) := by
  intro ops
  induction ops using List.reverseRecOn with
  | nil => exact start
  | append_singleton ops o ih =>
    rw [run_concat]
    exact next ops o ih

/-- The invariant rule: what the start has and every step keeps, every reached state has. -/
theorem run_keeps {P : σ → Prop} (hs : P s) (hstep : ∀ s o, P s → P (step s o)) (ops : List ο) :
    P (run step s ops) :=
  run_induction (P := fun _ s => P s) hs (fun _ o h => hstep _ o h) ops

/-- Every step of a run meets a condition. -/
def Throughout (step : σ → ο → σ) (C : σ → ο → Prop) : σ → List ο → Prop
  | _, [] => True
  | s, o :: ops => C s o ∧ Throughout step C (step s o) ops

instance decidableThroughout {C : σ → ο → Prop} [∀ s o, Decidable (C s o)] :
    ∀ s ops, Decidable (Throughout step C s ops)
  | _, [] => isTrue trivial
  | s, o :: ops =>
    have : Decidable (Throughout step C (step s o) ops) := decidableThroughout (step s o) ops
    inferInstanceAs (Decidable (_ ∧ _))

/-- The invariant rule for a run whose steps all meet a condition. -/
theorem throughout_keeps {P : σ → Prop} {C : σ → ο → Prop}
    (hstep : ∀ s o, P s → C s o → P (step s o)) :
    ∀ {ops : List ο} {s : σ}, P s → Throughout step C s ops → P (run step s ops)
  | [], _, hs, _ => hs
  | o :: _, s, hs, hC => throughout_keeps (s := step s o) hstep (hstep s o hs hC.1) hC.2

theorem throughout_append {C : σ → ο → Prop} : ∀ {ops more : List ο} {s : σ},
    Throughout step C s (ops ++ more) ↔
      Throughout step C s ops ∧ Throughout step C (run step s ops) more
  | [], more, s => by simp [Throughout]
  | o :: ops, more, s => by
    rw [List.cons_append, Throughout, Throughout, throughout_append, and_assoc]
    rfl

/-- A reflexive and transitive relation that every step of a run is in relates its two ends. -/
theorem run_relates {R : σ → σ → Prop} (hrefl : ∀ s, R s s) (htrans : ∀ {a b c}, R a b → R b c → R a c)
    {P : σ → Prop} (hs : P s) (hkeep : ∀ s o, P s → P (step s o))
    (hstep : ∀ s o, P s → R s (step s o)) (ops : List ο) : R s (run step s ops) :=
  run_induction (P := fun _ t => R s t) (hrefl s)
    (fun ops o h => htrans h (hstep _ o (run_keeps hs hkeep ops))) ops

/-- When each step keeps `P` exactly under a condition, a run stays in `P` exactly when all of its
steps meet the condition. -/
theorem prefixes_iff {J P : σ → Prop} {C : σ → ο → Prop} {A : ο → Prop} (hJ : J s)
    (hJstep : ∀ s o, J s → J (step s o)) (hP : P s)
    (hstep : ∀ s o, A o → J s → P s → (P (step s o) ↔ C s o)) {ops : List ο} (hA : ∀ o ∈ ops, A o) :
    (∀ ahead, ahead <+: ops → P (run step s ahead)) ↔
      ∀ ahead o, ahead ++ [o] <+: ops → C (run step s ahead) o := by
  constructor
  · intro h ahead o hpre
    have hmem : o ∈ ops := hpre.subset (by simp)
    have := h _ hpre
    rw [run_concat] at this
    exact (hstep _ o (hA o hmem) (run_keeps hJ hJstep ahead)
      (h ahead ((List.prefix_append ahead [o]).trans hpre))).1 this
  · intro h ahead
    refine run_induction (s := s) (P := fun ahead t => ahead <+: ops → P t) (fun _ => hP)
      (fun ahead o ih hpre => ?_) ahead
    have hmem : o ∈ ops := hpre.subset (by simp)
    exact (hstep _ o (hA o hmem) (run_keeps hJ hJstep ahead)
      (ih ((List.prefix_append ahead [o]).trans hpre))).2 (h ahead o hpre)

/-- What the steps of a run emit, in order. -/
def emitted (step : σ → ο → σ) (out : σ → ο → Option β) : σ → List ο → List β
  | _, [] => []
  | s, o :: ops => (out s o).toList ++ emitted step out (step s o) ops

variable {out : σ → ο → Option β}

@[simp]
theorem emitted_nil : emitted step out s [] = [] := rfl

theorem emitted_concat : ∀ (ops : List ο) (o : ο) (s : σ),
    emitted step out s (ops ++ [o]) = emitted step out s ops ++ (out (run step s ops) o).toList
  | [], o, s => by simp [emitted]
  | p :: ops, o, s => by
    simp only [List.cons_append, emitted, emitted_concat ops o, List.append_assoc]
    rfl

end Runs
