import Mathlib.Data.List.Basic
import Mathlib.Data.Nat.Notation

/-!
# Paragraphs of a stream

A stream has texts, and between them what ends a paragraph and what does not. Who takes the latter for
an end as well gets the same paragraphs just when it never stands within one.
-/

namespace Paragraphs

variable {α : Type*}

inductive Token (α : Type*) where
  | say (text : List α)
  | stop
  | pass

/-- What does not end a paragraph is taken for an end. -/
def Token.halt : Token α → Token α
  | pass => stop
  | token => token

/-- A paragraph, unless it is empty. -/
def emit : List α → List (List α)
  | [] => []
  | text => [text]

/-- The paragraphs of a stream, of which the first one has begun. -/
def join : List α → List (Token α) → List (List α)
  | held, [] => emit held
  | held, .say text :: rest => join (held ++ text) rest
  | held, .stop :: rest => emit held ++ join [] rest
  | held, .pass :: rest => join held rest

/-- Between two texts of one paragraph there are only texts. -/
def Unbroken (l : List (Token α)) : Prop :=
  ∀ front text mid text' back, l = front ++ .say text :: (mid ++ .say text' :: back) →
    text ≠ [] → text' ≠ [] → Token.stop ∉ mid → Token.pass ∉ mid

/-- Before the next end there is no text behind what does not end a paragraph. -/
def Clear (l : List (Token α)) : Prop :=
  ∀ front mid text back, l = front ++ .pass :: (mid ++ .say text :: back) →
    Token.stop ∉ front → Token.stop ∉ mid → text = []

variable {held other text : List α} {l back : List (Token α)}

@[simp]
theorem emit_nil : emit ([] : List α) = [] := rfl

theorem emit_of_ne (h : held ≠ []) : emit held = [held] := by
  cases held with
  | nil => exact absurd rfl h
  | cons a l => rfl

theorem Unbroken.tail {token : Token α} (h : Unbroken (token :: l)) : Unbroken l :=
  fun front text mid text' back heq => h (token :: front) text mid text' back (by rw [heq]; rfl)

theorem Clear.tail {token : Token α} (h : Clear (token :: l)) (htoken : Token.stop ≠ token) :
    Clear l := fun front mid text back heq hfront =>
  h (token :: front) mid text back (by rw [heq]; rfl) (List.not_mem_cons_of_ne_of_not_mem htoken hfront)

/-- Behind a text of an unbroken stream the paragraph goes on without a break. -/
theorem Unbroken.clear (h : Unbroken (.say text :: l)) (hne : text ≠ []) : Clear l := by
  intro front mid text' back heq hfront hmid
  by_contra hne'
  refine h [] text (front ++ .pass :: mid) text' back ?_ hne hne' ?_ (by simp)
  · rw [heq]
    simp
  · simp [hfront, hmid]

/-- A paragraph that nothing is said in any more ends at once. -/
theorem join_of_clear : ∀ {l : List (Token α)}, Clear (.pass :: l) → ∀ held : List α,
    join held l = emit held ++ join [] l
  | [], _, held => by simp [join]
  | .say text :: rest, h, held => by
    obtain rfl : text = [] := h [] [] text rest rfl (by simp) (by simp)
    rw [join, join, List.append_nil]
    refine join_of_clear (fun front mid text' back heq hfront hmid => ?_) held
    cases front with
    | nil =>
      obtain ⟨-, rfl⟩ := List.cons.inj heq
      exact h [] (.say [] :: mid) text' back rfl (by simp) (by simp [hmid])
    | cons token front =>
      obtain ⟨rfl, rfl⟩ := List.cons.inj heq
      exact h (.pass :: .say [] :: front) mid text' back rfl
        (by simpa using hfront) hmid
  | .stop :: rest, _, held => by simp [join]
  | .pass :: rest, h, held => by
    rw [join, join]
    exact join_of_clear (h.tail (by simp)) held

theorem join_halt_of_unbroken : ∀ {l : List (Token α)} {held : List α}, Unbroken l →
    (held ≠ [] → Clear l) → join held (l.map Token.halt) = join held l
  | [], _, _, _ => rfl
  | .say text :: rest, held, h, hclear => by
    show join (held ++ text) (rest.map Token.halt) = join (held ++ text) rest
    refine join_halt_of_unbroken h.tail fun hne => ?_
    by_cases htext : text = []
    · rw [htext, List.append_nil] at hne
      exact (hclear hne).tail (by simp)
    · exact h.clear htext
  | .stop :: rest, held, h, _ => by
    rw [List.map_cons, Token.halt, join, join, join_halt_of_unbroken h.tail fun hne => absurd rfl hne]
    simp
  | .pass :: rest, held, h, hclear => by
    rw [List.map_cons, Token.halt, join, join, join_halt_of_unbroken h.tail fun hne => absurd rfl hne]
    by_cases hne : held = []
    · rw [hne, emit_nil, List.nil_append]
    · rw [join_of_clear (hclear hne) held]

/-- How much has been said does not matter, if anything has. -/
theorem length_join_of_ne (h : held ≠ []) (h' : other ≠ []) : ∀ {l : List (Token α)},
    (join held l).length = (join other l).length := by
  intro l
  induction l generalizing held other with
  | nil => rw [join, join, emit_of_ne h, emit_of_ne h', List.length_singleton, List.length_singleton]
  | cons token rest ih =>
    cases token with
    | say text => exact ih (List.append_ne_nil_of_left_ne_nil h _) (List.append_ne_nil_of_left_ne_nil h' _)
    | stop => rw [join, join, emit_of_ne h, emit_of_ne h', List.length_append, List.length_append,
        List.length_singleton, List.length_singleton]
    | pass => exact ih h h'

/-- Nor does it if anything will be said. -/
theorem length_join_of_said (hne : text ≠ []) : ∀ {mid : List (Token α)}, Token.stop ∉ mid →
    ∀ held other : List α, (join held (mid ++ .say text :: back)).length =
      (join other (mid ++ .say text :: back)).length
  | [], _, _, _ => length_join_of_ne (List.append_ne_nil_of_right_ne_nil _ hne)
      (List.append_ne_nil_of_right_ne_nil _ hne)
  | .say more :: _, h, held, other =>
    length_join_of_said hne (List.not_mem_of_not_mem_cons h) (held ++ more) (other ++ more)
  | .stop :: _, h, _, _ => absurd List.mem_cons_self h
  | .pass :: _, h, held, other =>
    length_join_of_said hne (List.not_mem_of_not_mem_cons h) held other

/-- What has been said makes one more paragraph, if any. -/
theorem length_join_le (held : List α) : ∀ l : List (Token α),
    (join held l).length ≤ (emit held).length + (join [] l).length := by
  intro l
  induction l with
  | nil => simp [join]
  | cons token rest ih =>
    cases token with
    | say text =>
      rw [join, join, List.nil_append]
      by_cases htext : text = []
      · rw [htext, List.append_nil]
        exact ih
      · rw [length_join_of_ne (List.append_ne_nil_of_right_ne_nil _ htext) htext]
        omega
    | stop => simp [join]
    | pass => exact ih

theorem length_join_le_halt : ∀ (l : List (Token α)) (held : List α),
    (join held l).length ≤ (join held (l.map Token.halt)).length
  | [], _ => Nat.le_refl _
  | .say text :: rest, held => length_join_le_halt rest (held ++ text)
  | .stop :: rest, held => by
    have := length_join_le_halt rest []
    rw [List.map_cons, Token.halt, join, join, List.length_append, List.length_append]
    · omega
    · simp
  | .pass :: rest, held => by
    have := length_join_le_halt rest []
    have hle := length_join_le held rest
    rw [List.map_cons, Token.halt, join, join, List.length_append]
    omega

/-- A paragraph that is broken is more than one. -/
theorem length_join_broken (hne' : text ≠ []) : ∀ {mid : List (Token α)} {held : List α}, held ≠ [] →
    Token.stop ∉ mid → Token.pass ∈ mid → (join held (mid ++ .say text :: back)).length <
      (join held ((mid ++ .say text :: back).map Token.halt)).length
  | [], _, _, _, hpass => by cases hpass
  | .say more :: mid, held, hne, hstop, hpass => by
    show (join (held ++ more) (mid ++ .say text :: back)).length <
      (join (held ++ more) ((mid ++ .say text :: back).map Token.halt)).length
    exact length_join_broken hne' (List.append_ne_nil_of_left_ne_nil hne _)
      (List.not_mem_of_not_mem_cons hstop) (by simpa using hpass)
  | .stop :: _, _, _, hstop, _ => absurd List.mem_cons_self hstop
  | .pass :: mid, held, hne, hstop, _ => by
    have hsaid : (join held (mid ++ .say text :: back)).length =
        (join [] (mid ++ .say text :: back)).length :=
      length_join_of_said hne' (List.not_mem_of_not_mem_cons hstop) held []
    have hle := length_join_le_halt (mid ++ .say text :: back) []
    rw [List.cons_append, List.map_cons, Token.halt, join, join, emit_of_ne hne, List.length_append,
      List.length_singleton, hsaid]
    omega

theorem length_join_front {l : List (Token α)} (h : ∀ held : List α,
      (join held l).length < (join held (l.map Token.halt)).length) :
    ∀ (front : List (Token α)) (held : List α),
      (join held (front ++ l)).length < (join held ((front ++ l).map Token.halt)).length
  | [], held => h held
  | .say text :: front, held => length_join_front h front (held ++ text)
  | .stop :: front, held => by
    have := length_join_front h front []
    rw [List.cons_append, List.map_cons, Token.halt, join, join, List.length_append, List.length_append]
    · omega
    · simp
  | .pass :: front, held => by
    have := length_join_front h front []
    have hle := length_join_le held (front ++ l)
    rw [List.cons_append, List.map_cons, Token.halt, join, join, List.length_append]
    omega

/-- The paragraphs are the same just when none of them is broken. -/
theorem join_halt_iff : join [] (l.map Token.halt) = join [] l ↔ Unbroken l := by
  refine ⟨fun h => ?_, fun h => join_halt_of_unbroken h fun hne => absurd rfl hne⟩
  intro front text mid text' back heq hne hne' hstop hpass
  have hlt := length_join_front (l := .say text :: (mid ++ .say text' :: back))
    (fun held => length_join_broken hne' (List.append_ne_nil_of_right_ne_nil held hne) hstop hpass)
    front []
  rw [← heq, h] at hlt
  exact Nat.lt_irrefl _ hlt

end Paragraphs
