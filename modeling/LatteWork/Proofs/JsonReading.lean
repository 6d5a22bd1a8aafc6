import LatteWork.Wire.JsonText
import Mathlib.Data.List.Chain
import Mathlib.Data.List.TakeWhile

/-!
# JSON text is read back

The tokens of a rendered value are those of its structure, and they build it again on any stack. So
what was written of a value is what is read. A line break that is no error is between two tokens,
and these begin with a character of ASCII.
-/

namespace LatteWork

namespace Json

/-! ### Strings -/

/-- The character of a code, for codes that are no surrogates. -/
theorem ofNat_eq {c : Char} {n : ℕ} (h : c.toNat = n) : Char.ofNat n = c := by
  rw [← h, Char.ofNat_toNat]

theorem hexDigit_control : ∀ n < 16, hexDigit (Nat.digitChar n) = some n := by decide

variable {tokens : List Token}

/-- An escaped character is read as itself. -/
theorem lex_escapeChar (c : Char) (s : List Char) :
    (escapeChar c).toList.foldlM Lexer.step ⟨tokens, .string s⟩ =
      some ⟨tokens, .string (s ++ [c])⟩ := by
  unfold escapeChar
  split_ifs with hquote hslash h8 h9 h10 h12 h13 hcontrol
  · subst hquote
    rfl
  · subst hslash
    rfl
  · rw [← ofNat_eq h8]
    rfl
  · rw [← ofNat_eq h9]
    rfl
  · rw [← ofNat_eq h10]
    rfl
  · rw [← ofNat_eq h12]
    rfl
  · rw [← ofNat_eq h13]
    rfl
  · have hchars : ("\\u00" ++ hexByte c.toNat).toList =
        ['\\', 'u', '0', '0', Nat.digitChar (c.toNat / 16), Nat.digitChar (c.toNat % 16)] := by
      simp [String.toList_append, hexByte]
    have hhigh := hexDigit_control (c.toNat / 16) (by omega)
    have hlow := hexDigit_control (c.toNat % 16) (by omega)
    have hunit : 16 * (c.toNat / 16) + c.toNat % 16 = c.toNat := by omega
    have hmode : unitMode s none c.toNat = some (.string (s ++ [c])) := by
      have h₁ : ¬(0xD800 ≤ c.toNat ∧ c.toNat < 0xDC00) := by omega
      have h₂ : ¬(0xDC00 ≤ c.toNat ∧ c.toNat < 0xE000) := by omega
      simp only [unitMode, h₁, h₂, if_false, Char.ofNat_toNat]
    have hzero : hexDigit '0' = some 0 := rfl
    rw [hchars]
    simp [Lexer.step, hhigh, hlow, hzero, hunit, hmode]
  · have hplain : Lexer.step ⟨tokens, .string s⟩ c = some ⟨tokens, .string (s ++ [c])⟩ := by
      simp [Lexer.step, hquote, hslash, hcontrol]
    rw [String.toList_singleton, List.foldlM_cons, hplain]
    rfl

theorem lex_escape : ∀ (chars s : List Char),
    (escape chars).toList.foldlM Lexer.step ⟨tokens, .string s⟩ =
      some ⟨tokens, .string (s ++ chars)⟩
  | [], s => by simp [escape]
  | c :: rest, s => by
    rw [escape, String.toList_append, List.foldlM_append, lex_escapeChar, Option.bind_eq_bind,
      Option.bind_some, lex_escape rest, List.append_assoc]
    rfl

/-- A quoted string is one token. -/
theorem lex_quote (s : String) :
    (quote s).toList.foldlM Lexer.step ⟨tokens, .between⟩ =
      some ⟨tokens ++ [.str s.toList], .between⟩ := by
  rw [quote, String.toList_append, String.toList_append, List.foldlM_append, List.foldlM_append]
  have hopen : "\"".toList.foldlM Lexer.step ⟨tokens, .between⟩ = some ⟨tokens, .string []⟩ := rfl
  rw [hopen, Option.bind_eq_bind, Option.bind_some, lex_escape]
  rfl

/-! ### Words -/

/-- A run of word characters is one word, for as long as it goes on. -/
theorem lex_more : ∀ (w front : List Char), (∀ c ∈ w, wordChar c = true) →
    w.foldlM Lexer.step ⟨tokens, .word front⟩ = some ⟨tokens, .word (front ++ w)⟩
  | [], front, _ => by simp
  | c :: rest, front, h => by
    have hc := h c List.mem_cons_self
    have hstep : Lexer.step ⟨tokens, .word front⟩ c = some ⟨tokens, .word (front ++ [c])⟩ := by
      simp only [Lexer.step, hc, if_true]
    rw [List.foldlM_cons, hstep, Option.bind_eq_bind, Option.bind_some,
      lex_more rest _ fun d hd => h d (List.mem_cons_of_mem _ hd), List.append_assoc]
    rfl

theorem start_word {c : Char} (h : wordChar c = true) :
    Lexer.start tokens c = some ⟨tokens, .word [c]⟩ := by
  have hspace : space c = false := by
    by_contra hs
    simp only [space, Bool.not_eq_false, Bool.or_eq_true, decide_eq_true_eq] at hs
    rcases hs with ((rfl | rfl) | rfl) | rfl <;> exact absurd h (by decide)
  have hquote : c ≠ '"' := by
    rintro rfl
    exact absurd h (by decide)
  simp only [Lexer.start, hspace, hquote, h, if_false, if_true, Bool.false_eq_true]

theorem lex_word {w : List Char} (hne : w ≠ []) (h : ∀ c ∈ w, wordChar c = true) :
    w.foldlM Lexer.step ⟨tokens, .between⟩ = some ⟨tokens, .word w⟩ := by
  obtain ⟨c, rest, rfl⟩ := List.exists_cons_of_ne_nil hne
  have hstep : Lexer.step ⟨tokens, .between⟩ c = some ⟨tokens, .word [c]⟩ :=
    start_word (h c List.mem_cons_self)
  rw [List.foldlM_cons, hstep, Option.bind_eq_bind, Option.bind_some,
    lex_more rest _ fun d hd => h d (List.mem_cons_of_mem _ hd)]
  rfl

theorem wordChar_of_digit {c : Char} (h : c.isDigit = true) : wordChar c = true := by
  simp [wordChar, Char.isAlphanum, h]

theorem digit_or_behind {c : Char} {w : List Char} (h : c ∈ w) :
    wordChar c = true ∨ c ∈ w.dropWhile Char.isDigit := by
  rw [← List.takeWhile_append_dropWhile (p := Char.isDigit) (l := w), List.mem_append] at h
  exact h.imp (fun hd => wordChar_of_digit (List.mem_takeWhile_imp hd)) id

/-- A sign, where a number or an exponent has one, is a word character too. -/
theorem sign_or_behind {c : Char} {w : List Char} {s : Prop} [Decidable s] (h : c ∈ w)
    (hs : s → ∃ d, w.head? = some d ∧ wordChar d = true) :
    wordChar c = true ∨ c ∈ if s then w.tail else w := by
  split_ifs with hsign
  · obtain ⟨d, hd, hword⟩ := hs hsign
    rcases w with _ | ⟨e, rest⟩
    · simp at h
    · rcases List.mem_cons.1 h with rfl | h
      · exact .inl (by simp_all)
      · exact .inr h
  · exact .inr h

theorem wordChar_of_exponent {l : List Char} {s : Bool}
    (hs : s = true → l.head? = some '+' ∨ l.head? = some '-')
    (h : (if s = true then l.tail else l).all Char.isDigit = true) : ∀ c ∈ l, wordChar c = true := by
  intro c hc
  have hsign := sign_or_behind (s := s = true) hc fun ht => by
    rcases hs ht with h | h <;> exact ⟨_, h, by decide⟩
  exact hsign.elim id fun hc => wordChar_of_digit (List.all_eq_true.1 h c hc)

/-- What stands behind the fraction of a number, if it has digits. -/
def behindFraction : List Char → Option (List Char)
  | '.' :: more =>
    if more.takeWhile Char.isDigit = [] then none else some (more.dropWhile Char.isDigit)
  | more => some more

theorem wordChar_of_isNumber {w : List Char} (h : isNumber w = true) : ∀ c ∈ w, wordChar c = true := by
  intro c hc
  unfold isNumber at h
  dsimp only at h
  have hsign := sign_or_behind (s := w.head? = some '-') hc fun hs => ⟨_, hs, by decide⟩
  generalize (if w.head? = some '-' then w.tail else w) = body at h hsign
  refine hsign.elim id fun hc => (digit_or_behind hc).elim id fun hc => ?_
  rw [Bool.and_eq_true] at h
  have hrest := h.2
  -- Behind the whole digits stand a fraction or none, and an exponent or the end.
  have hfraction : ∀ l : List Char, behindFraction (body.dropWhile Char.isDigit) = some l →
      (∀ d ∈ l, wordChar d = true) → wordChar c = true := by
    intro l hl hword
    unfold behindFraction at hl
    split at hl
    · rename_i more hdrop
      split_ifs at hl
      rw [hdrop] at hc
      rcases List.mem_cons.1 hc with rfl | hc
      · decide
      · exact (digit_or_behind hc).elim id fun hc => hword c (Option.some.inj hl ▸ hc)
    · exact hword c (Option.some.inj hl ▸ hc)
  split at hrest
  · exact absurd hrest (by simp)
  · rename_i heq
    exact hfraction [] heq (by simp)
  · rename_i e more heq
    refine hfraction (e :: more) heq fun d hd => ?_
    simp only [Bool.and_eq_true] at hrest
    rcases List.mem_cons.1 hd with rfl | hd
    · have : d = 'e' ∨ d = 'E' := by simpa using hrest.1
      rcases this with rfl | rfl <;> decide
    · exact wordChar_of_exponent (by simp) hrest.2.2 d hd

/-! ### Values -/

mutual

/-- A value whose text is read back: numbers are well written, and no two fields of an object are
under one key. -/
def Textual : Json → Prop
  | .null | .bool _ | .str _ => True
  | .num text => isNumber text.toList = true
  | .arr items => TextualItems items
  | .obj fields => (fields.map (·.1)).Nodup ∧ TextualFields fields

def TextualItems : List Json → Prop
  | [] => True
  | v :: rest => Textual v ∧ TextualItems rest

def TextualFields : List (String × Json) → Prop
  | [] => True
  | (_, v) :: rest => Textual v ∧ TextualFields rest

end

theorem textualItems_iff {items : List Json} : TextualItems items ↔ ∀ v ∈ items, v.Textual := by
  induction items with
  | nil => simp [TextualItems]
  | cons v rest ih => simp [TextualItems, ih]

theorem textualFields_iff {fields : List (String × Json)} :
    TextualFields fields ↔ ∀ f ∈ fields, f.2.Textual := by
  induction fields with
  | nil => simp [TextualFields]
  | cons f rest ih => simp [TextualFields, ih]

mutual

/-- The tokens of a rendered value. -/
def shape : Json → List Token
  | .null => [.word "null".toList]
  | .bool b => [.word (if b then "true" else "false").toList]
  | .num text => [.word text.toList]
  | .str s => [.str s.toList]
  | .arr items => .openArr :: (shapeItems items ++ [.closeArr])
  | .obj fields => .openObj :: (shapeFields fields ++ [.closeObj])

def shapeItems : List Json → List Token
  | [] => []
  | v :: rest => shape v ++ shapeMoreItems rest

def shapeMoreItems : List Json → List Token
  | [] => []
  | v :: rest => .comma :: (shape v ++ shapeMoreItems rest)

def shapeFields : List (String × Json) → List Token
  | [] => []
  | (k, v) :: rest => .str k.toList :: .colon :: (shape v ++ shapeMoreFields rest)

def shapeMoreFields : List (String × Json) → List Token
  | [] => []
  | (k, v) :: rest => .comma :: .str k.toList :: .colon :: (shape v ++ shapeMoreFields rest)

end

/-- The text of a piece reads as its tokens. -/
def Reads (text : String) (ts : List Token) : Prop :=
  ∀ tokens, text.toList.foldlM Lexer.step ⟨tokens, .between⟩ = some ⟨tokens ++ ts, .between⟩

/-- The tokens so far, the last of them perhaps a word that may go on. -/
def Stands (l : Lexer) (ts : List Token) : Prop :=
  l = ⟨ts, .between⟩ ∨ ∃ front w, ts = front ++ [.word w] ∧ l = ⟨front, .word w⟩

/-- The text of a piece reads as its tokens, if no word character follows. -/
def ReadsOpen (text : String) (ts : List Token) : Prop :=
  ∀ tokens, ∃ l, text.toList.foldlM Lexer.step ⟨tokens, .between⟩ = some l ∧ Stands l (tokens ++ ts)

/-- A text that begins with no word character. -/
def Parted (text : String) : Prop := ∃ c rest, text.toList = c :: rest ∧ wordChar c = false

theorem Stands.step {l : Lexer} {ts : List Token} {c : Char} (h : Stands l ts)
    (hc : wordChar c = false) : l.step c = Lexer.step ⟨ts, .between⟩ c := by
  rcases h with rfl | ⟨front, w, rfl, rfl⟩
  · rfl
  · simp only [Lexer.step, hc, Bool.false_eq_true, if_false]

theorem Stands.finish {l : Lexer} {ts : List Token} (h : Stands l ts) : l.finish = some ts := by
  rcases h with rfl | ⟨front, w, rfl, rfl⟩ <;> rfl

theorem Parted.append {a : String} (h : Parted a) (b : String) : Parted (a ++ b) := by
  obtain ⟨c, rest, hchars, hc⟩ := h
  exact ⟨c, rest ++ b.toList, by rw [String.toList_append, hchars, List.cons_append], hc⟩

theorem Reads.open {text : String} {ts : List Token} (h : Reads text ts) : ReadsOpen text ts :=
  fun tokens => ⟨_, h tokens, .inl rfl⟩

theorem Reads.append {a b : String} {s t : List Token} (ha : Reads a s) (hb : Reads b t) :
    Reads (a ++ b) (s ++ t) := by
  intro tokens
  rw [String.toList_append, List.foldlM_append, ha, Option.bind_eq_bind, Option.bind_some, hb,
    List.append_assoc]

theorem ReadsOpen.append {a b : String} {s t : List Token} (ha : ReadsOpen a s) (hb : Reads b t)
    (hpart : Parted b) : Reads (a ++ b) (s ++ t) := by
  intro tokens
  obtain ⟨l, hl, hstands⟩ := ha tokens
  obtain ⟨c, rest, hchars, hc⟩ := hpart
  have hrest := hb (tokens ++ s)
  rw [hchars, List.foldlM_cons] at hrest
  rw [String.toList_append, List.foldlM_append, hl, Option.bind_eq_bind, Option.bind_some, hchars,
    List.foldlM_cons, hstands.step hc, hrest, List.append_assoc]

theorem reads_quote (s : String) : Reads (quote s) [.str s.toList] := fun _ => lex_quote s

theorem reads_word {text : String} (hne : text.toList ≠ [])
    (h : ∀ c ∈ text.toList, wordChar c = true) : ReadsOpen text [.word text.toList] :=
  fun tokens => ⟨_, lex_word hne h, .inr ⟨tokens, _, rfl, rfl⟩⟩

theorem ne_nil_of_isNumber {w : List Char} (h : isNumber w = true) : w ≠ [] := by
  rintro rfl
  exact absurd h (by decide)

/-- The text behind an item: more items, and the end of the array. -/
def moreItems (items : List Json) : String := renderMoreItems items ++ "]"

def moreFields (fields : List (String × Json)) : String := renderMoreFields fields ++ "\x7d"

theorem moreItems_cons (v : Json) (rest : List Json) :
    moreItems (v :: rest) = "," ++ (v.render ++ moreItems rest) := by
  simp only [moreItems, renderMoreItems, String.append_assoc]

theorem moreFields_cons (k : String) (v : Json) (rest : List (String × Json)) :
    moreFields ((k, v) :: rest) = "," ++ (quote k ++ (":" ++ (v.render ++ moreFields rest))) := by
  simp only [moreFields, renderMoreFields, String.append_assoc]

theorem parted_moreItems : ∀ items : List Json, Parted (moreItems items)
  | [] => ⟨']', [], rfl, rfl⟩
  | v :: rest => by
    rw [moreItems_cons]
    exact Parted.append ⟨',', [], rfl, rfl⟩ _

theorem parted_moreFields : ∀ fields : List (String × Json), Parted (moreFields fields)
  | [] => ⟨Char.ofNat 125, [], rfl, rfl⟩
  | (k, v) :: rest => by
    rw [moreFields_cons]
    exact Parted.append ⟨',', [], rfl, rfl⟩ _

theorem reads_comma : Reads "," [.comma] := fun _ => rfl

theorem reads_colon : Reads ":" [.colon] := fun _ => rfl

mutual

theorem reads_render : ∀ v : Json, v.Textual → ReadsOpen v.render (shape v)
  | .null, _ => reads_word (by decide) (List.all_eq_true.1 (by decide))
  | .bool true, _ => reads_word (by decide) (List.all_eq_true.1 (by decide))
  | .bool false, _ => reads_word (by decide) (List.all_eq_true.1 (by decide))
  | .num text, h => reads_word (ne_nil_of_isNumber h) (wordChar_of_isNumber h)
  | .str s, _ => (reads_quote s).open
  | .arr [], _ => by
    have hopen : Reads "[" [.openArr] := fun _ => rfl
    have hclose : Reads "]" [.closeArr] := fun _ => rfl
    exact (hopen.append hclose).open
  | .arr (v :: rest), h => by
    have hopen : Reads "[" [.openArr] := fun _ => rfl
    have hitems := (reads_render v h.1).append (reads_moreItems rest h.2) (parted_moreItems rest)
    have htext : (Json.arr (v :: rest)).render = "[" ++ (v.render ++ moreItems rest) := by
      simp only [render, renderItems, moreItems, String.append_assoc]
    have hshape : shape (.arr (v :: rest)) =
        [.openArr] ++ (shape v ++ (shapeMoreItems rest ++ [.closeArr])) := by
      simp [shape, shapeItems]
    rw [htext, hshape]
    exact (hopen.append hitems).open
  | .obj [], _ => by
    have hopen : Reads "\x7b" [.openObj] := fun _ => rfl
    have hclose : Reads "\x7d" [.closeObj] := fun _ => rfl
    exact (hopen.append hclose).open
  | .obj ((k, v) :: rest), h => by
    have hopen : Reads "\x7b" [.openObj] := fun _ => rfl
    have hfields := (reads_render v h.2.1).append (reads_moreFields rest h.2.2) (parted_moreFields rest)
    have htext : (Json.obj ((k, v) :: rest)).render =
        "\x7b" ++ (quote k ++ (":" ++ (v.render ++ moreFields rest))) := by
      simp only [render, renderFields, moreFields, String.append_assoc]
    have hshape : shape (.obj ((k, v) :: rest)) =
        [.openObj] ++ ([.str k.toList] ++
          ([.colon] ++ (shape v ++ (shapeMoreFields rest ++ [.closeObj])))) := by
      simp [shape, shapeFields]
    rw [htext, hshape]
    exact (hopen.append ((reads_quote k).append (reads_colon.append hfields))).open

theorem reads_moreItems : ∀ items : List Json, TextualItems items →
    Reads (moreItems items) (shapeMoreItems items ++ [.closeArr])
  | [], _ => fun _ => rfl
  | v :: rest, h => by
    have hitems := (reads_render v h.1).append (reads_moreItems rest h.2) (parted_moreItems rest)
    have hshape : shapeMoreItems (v :: rest) ++ [.closeArr] =
        [.comma] ++ (shape v ++ (shapeMoreItems rest ++ [.closeArr])) := by
      simp [shapeMoreItems]
    rw [moreItems_cons, hshape]
    exact reads_comma.append hitems

theorem reads_moreFields : ∀ fields : List (String × Json), TextualFields fields →
    Reads (moreFields fields) (shapeMoreFields fields ++ [.closeObj])
  | [], _ => fun _ => rfl
  | (k, v) :: rest, h => by
    have hfields := (reads_render v h.1).append (reads_moreFields rest h.2) (parted_moreFields rest)
    have hshape : shapeMoreFields ((k, v) :: rest) ++ [.closeObj] =
        [.comma] ++ ([.str k.toList] ++
          ([.colon] ++ (shape v ++ (shapeMoreFields rest ++ [.closeObj])))) := by
      simp [shapeMoreFields]
    rw [moreFields_cons, hshape]
    exact reads_comma.append ((reads_quote k).append (reads_colon.append hfields))

end

/-! ### Building -/

variable {frames : List Frame}

/-- A field of a new key comes last. -/
theorem put_new {key : String} {v : Json} {done : List (String × Json)}
    (h : ∀ p ∈ done, p.1 ≠ key) : Assoc.put key v done = done ++ [(key, v)] := by
  rw [Assoc.put, Assoc.drop_of_not_mem h]

/-- Where a first item may come, a value is built as where it must. -/
theorem build_first : ∀ v : Json,
    (shape v).foldlM Build.step ⟨frames, .firstItem⟩ = (shape v).foldlM Build.step ⟨frames, .value⟩
  | .null | .bool _ | .num _ | .str _ | .arr _ | .obj _ => rfl

/-- A number is none of the three names. -/
theorem wordValue_number {text : String} (h : isNumber text.toList = true) :
    wordValue text.toList = some (.num text) := by
  have hnull : text.toList ≠ "null".toList := fun he => absurd (he ▸ h) (by decide)
  have htrue : text.toList ≠ "true".toList := fun he => absurd (he ▸ h) (by decide)
  have hfalse : text.toList ≠ "false".toList := fun he => absurd (he ▸ h) (by decide)
  rw [wordValue, if_neg hnull, if_neg htrue, if_neg hfalse, if_pos h, String.ofList_toList]

mutual

/-- The tokens of a value put it on whatever is open. -/
theorem build_shape : ∀ (v : Json) (frames : List Frame), v.Textual →
    (shape v).foldlM Build.step ⟨frames, .value⟩ = some (Build.put frames v)
  | .null, frames, _ => rfl
  | .bool true, frames, _ => rfl
  | .bool false, frames, _ => rfl
  | .num text, frames, h => by simp [shape, Build.step, Build.start, wordValue_number h]
  | .str s, frames, _ => by simp [shape, Build.step, Build.start]
  | .arr [], frames, _ => rfl
  | .arr (v :: rest), frames, h => by
    have hopen : Build.step ⟨frames, .value⟩ .openArr = some ⟨.items [] :: frames, .firstItem⟩ := rfl
    rw [shape, List.foldlM_cons, hopen, Option.bind_eq_bind, Option.bind_some, shapeItems,
      List.foldlM_append, List.foldlM_append, build_first v, build_shape v _ h.1,
      Option.bind_eq_bind, Option.bind_some, Build.put, build_moreItems rest _ _ h.2]
    rfl
  | .obj [], frames, _ => rfl
  | .obj ((k, v) :: rest), frames, h => by
    have hopen : (shape (.obj ((k, v) :: rest))).foldlM Build.step ⟨frames, .value⟩ =
        (shape v ++ (shapeMoreFields rest ++ [Token.closeObj])).foldlM Build.step
          ⟨.fields [] (String.ofList k.toList) :: frames, .value⟩ := by
      rw [shape, shapeFields, ← List.append_assoc]
      rfl
    obtain ⟨last, hrest⟩ := build_moreFields rest [(k, v)] k frames h.2.2 h.1
    rw [hopen, String.ofList_toList, List.foldlM_append, build_shape v _ h.2.1, Option.bind_eq_bind,
      Option.bind_some, Build.put, put_new (by simp), List.foldlM_append, List.nil_append, hrest]
    rfl

theorem build_moreItems : ∀ (items : List Json) (done : List Json) (frames : List Frame),
    TextualItems items →
    (shapeMoreItems items).foldlM Build.step ⟨.items done :: frames, .separator⟩ =
      some ⟨.items (done ++ items) :: frames, .separator⟩
  | [], done, frames, _ => by simp [shapeMoreItems]
  | v :: rest, done, frames, h => by
    have hnext : Build.step ⟨.items done :: frames, .separator⟩ .comma =
      some ⟨.items done :: frames, .value⟩ := rfl
    rw [shapeMoreItems, List.foldlM_cons, hnext, Option.bind_eq_bind, Option.bind_some,
      List.foldlM_append, build_shape v _ h.1, Option.bind_eq_bind, Option.bind_some, Build.put,
      build_moreItems rest _ _ h.2, List.append_assoc]
    rfl

theorem build_moreFields : ∀ (fields done : List (String × Json)) (key : String)
    (frames : List Frame), TextualFields fields → ((done ++ fields).map (·.1)).Nodup →
    ∃ last, (shapeMoreFields fields).foldlM Build.step ⟨.fields done key :: frames, .separator⟩ =
      some ⟨.fields (done ++ fields) last :: frames, .separator⟩
  | [], done, key, frames, _, _ => ⟨key, by simp [shapeMoreFields]⟩
  | (k, v) :: rest, done, key, frames, h, hkeys => by
    have hnext : (shapeMoreFields ((k, v) :: rest)).foldlM Build.step
        ⟨.fields done key :: frames, .separator⟩ =
          (shape v ++ shapeMoreFields rest).foldlM Build.step
            ⟨.fields done (String.ofList k.toList) :: frames, .value⟩ := rfl
    have hnew : ∀ p ∈ done, p.1 ≠ k := by
      intro p hp hpk
      rw [List.map_append, List.map_cons] at hkeys
      exact (List.nodup_append.1 hkeys).2.2 _ (List.mem_map_of_mem hp) _ List.mem_cons_self hpk
    obtain ⟨last, hrest⟩ := build_moreFields rest (done ++ [(k, v)]) k frames h.2
      (by rwa [List.append_assoc, List.singleton_append])
    refine ⟨last, ?_⟩
    rw [hnext, String.ofList_toList, List.foldlM_append, build_shape v _ h.1, Option.bind_eq_bind,
      Option.bind_some, Build.put, put_new hnew, hrest, List.append_assoc, List.singleton_append]

end

/-- What was written of a value is what is read. -/
theorem parse_render {v : Json} (h : v.Textual) : parse v.render.toList = some v := by
  obtain ⟨l, hread, hstands⟩ := reads_render v h []
  have hbuild := build_shape v [] h
  rw [parse, tokens, hread, Option.bind_some, hstands.finish, List.nil_append, Option.bind_some,
    hbuild]
  rfl

/-! ### Line breaks -/

/-- A line break is followed by a character of ASCII. -/
def Tidy (text : List Char) : Prop := text.IsChain fun a b => a = '\n' → b.toNat < 128

theorem wordChar_ascii {c : Char} (h : wordChar c = true) : c.toNat < 128 := by
  have hval : c.toNat = c.val.toNat := rfl
  have hZ : 'Z'.val.toNat = 90 := rfl
  have hz : 'z'.val.toNat = 122 := rfl
  have h9 : '9'.val.toNat = 57 := rfl
  simp only [wordChar, Bool.or_eq_true, decide_eq_true_eq] at h
  obtain ((h | rfl) | rfl) | rfl := h
  · change ((decide ('A'.val ≤ c.val ∧ c.val ≤ 'Z'.val) || ('a'.val ≤ c.val && c.val ≤ 'z'.val)) ||
      ('0'.val ≤ c.val && c.val ≤ '9'.val)) = true at h
    simp only [Bool.or_eq_true, Bool.and_eq_true, decide_eq_true_eq, UInt32.le_iff_toNat_le] at h
    omega
  all_goals decide

theorem start_ascii {c : Char} {l : Lexer} (h : Lexer.start tokens c = some l) : c.toNat < 128 := by
  unfold Lexer.start at h
  split_ifs at h with hspace hquote hword
  · simp only [space, Bool.or_eq_true, decide_eq_true_eq] at hspace
    rcases hspace with ((rfl | rfl) | rfl) | rfl <;> decide
  · subst hquote
    decide
  · exact wordChar_ascii hword
  · rw [Option.map_eq_some_iff] at h
    obtain ⟨t, ht, -⟩ := h
    unfold punctuation at ht
    split_ifs at ht <;> first | omega | (subst_vars; decide)

/-- A line break is read between tokens, and a character between tokens is of ASCII. -/
theorem step_lineBreak {l l' : Lexer} {c : Char} (h : l.step c = some l') :
    (l.mode = .between → c.toNat < 128) ∧ (c = '\n' → l'.mode = .between) := by
  have hstart : ∀ tokens, Lexer.start tokens '\n' = some { tokens } := fun _ => rfl
  unfold Lexer.step at h
  constructor
  · intro hmode
    rw [hmode] at h
    exact start_ascii h
  · rintro rfl
    cases hm : l.mode with
    | between =>
      rw [hm, hstart] at h
      rw [← Option.some.inj h]
    | word w =>
      have hword : wordChar '\n' = false := rfl
      simp only [hm, hword, hstart] at h
      simp at h
      rw [← h]
    | string s => simp [hm] at h
    | escape s => simp [hm, shortEscape] at h
    | hex s high digits value =>
      have hnone : hexDigit '\n' = none := rfl
      simp [hm, hnone] at h
    | high s high => simp [hm] at h
    | highEscape s high => simp [hm] at h

theorem tidy_of_lexed : ∀ {text : List Char} {l l' : Lexer},
    text.foldlM Lexer.step l = some l' → Tidy text
  | [], _, _, _ => .nil
  | [c], _, _, _ => .singleton c
  | c :: d :: rest, l, l', h => by
    rw [List.foldlM_cons, Option.bind_eq_bind, Option.bind_eq_some_iff] at h
    obtain ⟨m, hc, hrest⟩ := h
    refine List.isChain_cons_cons.2 ⟨fun hbreak => ?_, tidy_of_lexed hrest⟩
    rw [List.foldlM_cons, Option.bind_eq_bind, Option.bind_eq_some_iff] at hrest
    obtain ⟨n, hd, -⟩ := hrest
    exact (step_lineBreak hd).1 ((step_lineBreak hc).2 hbreak)

/-- A text that is read is tidy. -/
theorem tidy_of_parse {text : List Char} {v : Json} (h : parse text = some v) : Tidy text := by
  obtain ⟨ts, hts, -⟩ := Option.bind_eq_some_iff.1 h
  obtain ⟨l, hl, -⟩ := Option.bind_eq_some_iff.1 hts
  exact tidy_of_lexed hl

end Json

end LatteWork
