import LatteWork.Lib.Fallible
import Mathlib.Data.List.Infix

/-!
# Lines and what is read from them

A text that grows at its end, as its lines and the rest that is still written; and a transducer
that reads one input after another, keeps a state and emits, or fails. Reading goes on where it
stopped: what two stretches give is what both together give.
-/

namespace Lines

variable {α : Type} (sep : α → Bool)

/-- The lines that are written to their end, each with its separator, and the rest. -/
def cut : List α → List (List α) × List α
  | [] => ([], [])
  | a :: text =>
    if sep a then ([a] :: (cut text).1, (cut text).2)
    else match (cut text).1 with
      | [] => ([], a :: (cut text).2)
      | line :: lines => ((a :: line) :: lines, (cut text).2)

def complete (text : List α) : List (List α) := (cut sep text).1

def tail (text : List α) : List α := (cut sep text).2

/-- `split_inclusive`. -/
def split (text : List α) : List (List α) :=
  complete sep text ++ if (tail sep text).isEmpty then [] else [tail sep text]

/-- A line that is written to its end, with nothing behind it. -/
def Whole (line : List α) : Prop :=
  ∃ body a, line = body ++ [a] ∧ sep a = true ∧ ∀ b ∈ body, sep b = false

variable {sep}

theorem Whole.ne_nil {line : List α} (h : Whole sep line) : line ≠ [] := by
  obtain ⟨body, a, rfl, -⟩ := h
  simp

theorem complete_flatten : ∀ text : List α,
    (complete sep text).flatten ++ tail sep text = text
  | [] => rfl
  | a :: text => by
    have ih := complete_flatten text
    unfold complete tail at ih ⊢
    unfold cut
    split_ifs
    · rw [List.flatten_cons, List.append_assoc, ih]
      rfl
    · split
      · rename_i h
        rw [h] at ih
        exact congrArg (a :: ·) ih
      · rename_i line lines h
        rw [h] at ih
        exact congrArg (a :: ·) ih

theorem complete_whole {line : List α} : ∀ {text : List α}, line ∈ complete sep text → Whole sep line
  | [], h => by simp [complete, cut] at h
  | a :: text, h => by
    unfold complete cut at h
    split_ifs at h with ha
    · rcases List.mem_cons.1 h with rfl | h
      · exact ⟨[], a, rfl, ha, by simp⟩
      · exact complete_whole h
    · split at h
      · simp at h
      · rename_i first lines hcut
        rcases List.mem_cons.1 h with rfl | h
        · obtain ⟨body, b, rfl, hb, hbody⟩ :=
            @complete_whole first text (by rw [complete, hcut]; exact List.mem_cons_self)
          refine ⟨a :: body, b, rfl, hb, fun c hc => ?_⟩
          rcases List.mem_cons.1 hc with rfl | hc
          · simpa using ha
          · exact hbody c hc
        · exact @complete_whole line text (by rw [complete, hcut]; exact List.mem_cons_of_mem _ h)

theorem cut_whole {line rest : List α} (h : Whole sep line) :
    cut sep (line ++ rest) = (line :: (cut sep rest).1, (cut sep rest).2) := by
  obtain ⟨body, a, rfl, ha, hbody⟩ := h
  induction body with
  | nil => simp [cut, ha]
  | cons b body ih =>
    have ih := ih fun c hc => hbody c (List.mem_cons_of_mem _ hc)
    have hb := hbody b List.mem_cons_self
    rw [List.cons_append, List.cons_append, cut, if_neg (by simp [hb]), ih]

/-- Lines at the front of a text stay what they are. -/
theorem cut_flatten {rest : List α} : ∀ {lines : List (List α)}, (∀ line ∈ lines, Whole sep line) →
    cut sep (lines.flatten ++ rest) = (lines ++ (cut sep rest).1, (cut sep rest).2)
  | [], _ => rfl
  | line :: lines, h => by
    rw [List.flatten_cons, List.append_assoc, cut_whole (h line List.mem_cons_self),
      cut_flatten fun l hl => h l (List.mem_cons_of_mem _ hl)]
    rfl

theorem complete_of_flatten {lines : List (List α)} {rest : List α}
    (h : ∀ line ∈ lines, Whole sep line) :
    complete sep (lines.flatten ++ rest) = lines ++ complete sep rest :=
  congrArg Prod.fst (cut_flatten h)

theorem split_of_flatten {lines : List (List α)} (h : ∀ line ∈ lines, Whole sep line) :
    split sep lines.flatten = lines := by
  have hcut := @cut_flatten α sep [] lines h
  rw [List.append_nil] at hcut
  simp [split, complete, tail, hcut, cut]

/-- What is written behind a text leaves its lines alone. -/
theorem complete_prefix_append (text more : List α) :
    complete sep text <+: complete sep (text ++ more) := by
  conv_rhs => rw [← @complete_flatten α sep text, List.append_assoc]
  rw [complete_of_flatten fun line h => complete_whole h]
  exact List.prefix_append _ _

/-- Behind some lines of a text are the others. -/
theorem complete_drop {text : List α} {lines : List (List α)} (h : lines <+: complete sep text) :
    ∃ more, complete sep text = lines ++ more ∧
      complete sep (text.drop lines.flatten.length) = more ∧
      tail sep (text.drop lines.flatten.length) = tail sep text := by
  obtain ⟨more, hmore⟩ := h
  have hsplit : text = lines.flatten ++ (more.flatten ++ tail sep text) := by
    rw [← List.append_assoc, ← List.flatten_append, hmore, complete_flatten]
  have hwhole : ∀ line ∈ lines, Whole sep line := fun line hline =>
    @complete_whole α sep line text (hmore ▸ List.mem_append_left _ hline)
  have hdrop : text.drop lines.flatten.length = more.flatten ++ tail sep text := by
    conv_lhs => rw [hsplit]
    rw [List.drop_left]
  have hcut := @cut_flatten α sep (more.flatten ++ tail sep text) lines hwhole
  rw [← hsplit] at hcut
  refine ⟨more, hmore.symm, ?_, ?_⟩
  · rw [hdrop]
    have := congrArg Prod.fst hcut
    exact List.append_cancel_left (this.symm.trans hmore.symm)
  · rw [hdrop]
    exact (congrArg Prod.snd hcut).symm

theorem tail_free : ∀ {text : List α}, ∀ a ∈ tail sep text, sep a = false
  | [], a, h => by simp [tail, cut] at h
  | b :: text, a, h => by
    unfold tail cut at h
    split_ifs at h with hb
    · exact tail_free a h
    · split at h
      · rename_i hcut
        rcases List.mem_cons.1 h with rfl | h
        · simpa using hb
        · exact tail_free a h
      · exact tail_free a h

theorem cut_free : ∀ {rest : List α}, (∀ a ∈ rest, sep a = false) → cut sep rest = ([], rest)
  | [], _ => rfl
  | a :: rest, h => by
    rw [cut, cut_free fun b hb => h b (List.mem_cons_of_mem _ hb), if_neg (by simp [h a])]

/-- A text that goes on to the end of a line. -/
theorem cut_append_whole {part : List α} (h : Whole sep part) (text : List α) :
    cut sep (text ++ part) = (complete sep text ++ [tail sep text ++ part], []) := by
  have hwhole : Whole sep (tail sep text ++ part) := by
    obtain ⟨body, a, rfl, ha, hbody⟩ := h
    refine ⟨tail sep text ++ body, a, (List.append_assoc _ _ _).symm, ha, fun b hb => ?_⟩
    exact (List.mem_append.1 hb).elim (tail_free b) (hbody b)
  have hcut := @cut_whole α sep (tail sep text ++ part) [] hwhole
  rw [List.append_nil] at hcut
  conv_lhs => rw [← @complete_flatten α sep text, List.append_assoc]
  rw [cut_flatten fun line hline => complete_whole hline, hcut]
  rfl

/-- A text that goes on within a line. -/
theorem cut_append_free {part : List α} (h : ∀ a ∈ part, sep a = false) (text : List α) :
    cut sep (text ++ part) = (complete sep text, tail sep text ++ part) := by
  conv_lhs => rw [← @complete_flatten α sep text, List.append_assoc]
  rw [cut_flatten fun line hline => complete_whole hline, cut_free fun a ha =>
    (List.mem_append.1 ha).elim (tail_free a) (h a), List.append_nil]

theorem split_flatten (text : List α) : (split sep text).flatten = text := by
  rw [split, List.flatten_append]
  conv_rhs => rw [← @complete_flatten α sep text]
  split_ifs with h
  · rw [List.isEmpty_iff.1 h]
    rfl
  · simp

/-- The parts of a text are lines, or have no end. -/
theorem mem_split {part text : List α} (h : part ∈ split sep text) :
    Whole sep part ∨ ∀ a ∈ part, sep a = false := by
  rcases List.mem_append.1 h with h | h
  · exact .inl (complete_whole h)
  · split_ifs at h
    · cases h
    · obtain rfl := List.mem_singleton.1 h
      exact .inr tail_free

end Lines

namespace Transducer

open Fallible

variable {σ α β ε : Type}

/-- Read a list of inputs, one after the other. -/
def run (step : σ → α → Except ε (σ × List β)) : σ → List α → Except ε (σ × List β)
  | s, [] => .ok (s, [])
  | s, a :: rest => do
    let (s, out) ← step s a
    let (s, more) ← run step s rest
    .ok (s, out ++ more)

variable {step : σ → α → Except ε (σ × List β)}

theorem run_cons_ok {s t : σ} {a : α} {rest : List α} {out : List β} :
    run step s (a :: rest) = .ok (t, out) ↔
      ∃ u o more, step s a = .ok (u, o) ∧ run step u rest = .ok (t, more) ∧ out = o ++ more := by
  simp only [run, bind_eq_ok, Except.ok.injEq, Prod.mk.injEq, Prod.exists]
  constructor
  · rintro ⟨u, o, hstep, t, more, hrun, rfl, rfl⟩
    exact ⟨u, o, more, hstep, hrun, rfl⟩
  · rintro ⟨u, o, more, hstep, hrun, rfl⟩
    exact ⟨u, o, hstep, t, more, hrun, rfl, rfl⟩

/-- Reading goes on where it stopped. -/
theorem run_append_ok {m : List α} {t : σ} : ∀ {l : List α} {s : σ} {out : List β},
    run step s (l ++ m) = .ok (t, out) ↔
      ∃ u o more, run step s l = .ok (u, o) ∧ run step u m = .ok (t, more) ∧ out = o ++ more
  | [], s, out => by simp [run]
  | a :: l, s, out => by
    rw [List.cons_append, run_cons_ok]
    constructor
    · rintro ⟨u, o, more, hstep, hrun, rfl⟩
      obtain ⟨v, o', more', hl, hm, rfl⟩ := run_append_ok.1 hrun
      exact ⟨v, o ++ o', more', run_cons_ok.2 ⟨u, o, o', hstep, hl, rfl⟩, hm,
        (List.append_assoc _ _ _).symm⟩
    · rintro ⟨v, o, more, hl, hm, rfl⟩
      obtain ⟨u, o', more', hstep, hrun, rfl⟩ := run_cons_ok.1 hl
      exact ⟨u, o', more' ++ more, hstep, run_append_ok.2 ⟨v, more', more, hrun, hm, rfl⟩,
        List.append_assoc _ _ _⟩

/-- What the start has and every step keeps, of the inputs read, the state and what was emitted,
the end has. -/
theorem run_keeps {P : List α → σ → List β → Prop} {C : α → Prop}
    (hstep : ∀ done s out a t o, P done s out → C a → step s a = .ok (t, o) →
      P (done ++ [a]) t (out ++ o)) :
    ∀ {rest done : List α} {s t : σ} {out more : List β}, P done s out → (∀ a ∈ rest, C a) →
      run step s rest = .ok (t, more) → P (done ++ rest) t (out ++ more)
  | [], done, s, t, out, more, hP, _, h => by
    obtain ⟨rfl, rfl⟩ := Prod.mk.inj (Except.ok.inj h)
    rwa [List.append_nil, List.append_nil]
  | a :: rest, done, s, t, out, more, hP, hC, h => by
    obtain ⟨u, o, more', ha, hrest, rfl⟩ := run_cons_ok.1 h
    have := run_keeps hstep (hstep _ _ _ _ _ _ hP (hC a List.mem_cons_self) ha)
      (fun b hb => hC b (List.mem_cons_of_mem _ hb)) hrest
    rwa [List.append_assoc, List.singleton_append, List.append_assoc] at this

end Transducer
