import LatteWork.Wire.Json
import Mathlib.Algebra.Order.BigOperators.Group.List
import Mathlib.Data.Nat.Digits.Defs
import Mathlib.Data.String.Basic

/-!
# Sizes of JSON texts

The size of an array or an object is the sum of the sizes of what it holds, a comma each. Escaping
makes at most six bytes of one.
-/

namespace LatteWork

namespace Json

/-- Bytes of a field: its quoted key, the colon and its value. -/
def fieldSize (field : String × Json) : ℕ := (quote field.1).utf8ByteSize + 1 + field.2.size

theorem size_renderMoreItems : ∀ items : List Json,
    (renderMoreItems items).utf8ByteSize = (items.map fun v => v.size + 1).sum
  | [] => rfl
  | v :: rest => by
    have hcomma : ",".utf8ByteSize = 1 := rfl
    simp only [renderMoreItems, String.utf8ByteSize_append, size_renderMoreItems rest, hcomma,
      List.map_cons, List.sum_cons, size]
    omega

theorem size_renderMoreFields : ∀ fields : List (String × Json),
    (renderMoreFields fields).utf8ByteSize = (fields.map fun f => fieldSize f + 1).sum
  | [] => rfl
  | (k, v) :: rest => by
    have hcomma : ",".utf8ByteSize = 1 := rfl
    have hcolon : ":".utf8ByteSize = 1 := rfl
    simp only [renderMoreFields, String.utf8ByteSize_append, size_renderMoreFields rest, hcomma,
      hcolon, List.map_cons, List.sum_cons, size, fieldSize]
    omega

@[simp]
theorem size_arr_nil : (arr []).size = 2 := rfl

theorem size_arr_cons (v : Json) (rest : List Json) :
    (arr (v :: rest)).size = v.size + (rest.map fun w => w.size + 1).sum + 2 := by
  have hopen : "[".utf8ByteSize = 1 := rfl
  have hclose : "]".utf8ByteSize = 1 := rfl
  simp only [size, render, renderItems, String.utf8ByteSize_append, size_renderMoreItems, hopen,
    hclose]
  omega

/-- An array takes its items, a comma each, and two brackets, less the comma that is not there. -/
theorem size_arr_add_one {items : List Json} (h : items ≠ []) :
    (arr items).size + 1 = (items.map fun v => v.size + 1).sum + 2 := by
  obtain ⟨v, rest, rfl⟩ := List.exists_cons_of_ne_nil h
  rw [size_arr_cons, List.map_cons, List.sum_cons]
  omega

theorem size_arr_le (items : List Json) :
    (arr items).size ≤ (items.map fun v => v.size + 1).sum + 2 := by
  rcases items with _ | ⟨v, rest⟩
  · simp
  · have := size_arr_add_one (List.cons_ne_nil v rest)
    omega

/-- A longer array is larger. -/
theorem size_arr_lt_append {items more : List Json} (hne : more ≠ []) (hpos : ∀ v ∈ more, 0 < v.size) :
    (arr items).size < (arr (items ++ more)).size := by
  obtain ⟨v, rest, rfl⟩ := List.exists_cons_of_ne_nil hne
  have hv := hpos v List.mem_cons_self
  have happend := size_arr_add_one (by simp : items ++ v :: rest ≠ [])
  have hitems := size_arr_le items
  rcases items with _ | ⟨w, items⟩
  · rw [List.nil_append, size_arr_cons, size_arr_nil]
    omega
  · have hw := size_arr_add_one (List.cons_ne_nil w items)
    rw [List.map_append, List.sum_append, List.map_cons (a := v), List.sum_cons] at happend
    omega

theorem size_obj_cons (f : String × Json) (rest : List (String × Json)) :
    (obj (f :: rest)).size = fieldSize f + (rest.map fun g => fieldSize g + 1).sum + 2 := by
  have hopen : "\x7b".utf8ByteSize = 1 := rfl
  have hcolon : ":".utf8ByteSize = 1 := rfl
  have hclose : "\x7d".utf8ByteSize = 1 := rfl
  simp only [size, render, renderFields, String.utf8ByteSize_append, size_renderMoreFields, hopen,
    hcolon, hclose, fieldSize]
  omega

/-- An object of few fields, each with a short name and a bounded value. -/
theorem size_obj_le {fields : List (String × Json)} {n : ℕ}
    (h : ∀ f ∈ fields, (quote f.1).utf8ByteSize ≤ 30 ∧ f.2.size ≤ n) :
    (obj fields).size ≤ fields.length * (n + 32) + 2 := by
  rcases fields with _ | ⟨f, rest⟩
  · simp [size, render, renderFields]; decide
  · have hsum := List.sum_le_card_nsmul ((f :: rest).map fun g => fieldSize g + 1) (n + 32) (by
      intro x hx
      obtain ⟨g, hg, rfl⟩ := List.mem_map.1 hx
      have := h g hg
      simp only [fieldSize]
      omega)
    rw [List.length_map, nsmul_eq_mul, Nat.cast_id, List.map_cons, List.sum_cons] at hsum
    rw [size_obj_cons]
    omega

/-- An object takes at least its fields, and a comma each. -/
theorem sum_fieldSize_lt (fields : List (String × Json)) :
    (fields.map fun f => fieldSize f + 1).sum < (obj fields).size := by
  rcases fields with _ | ⟨f, rest⟩
  · exact Nat.zero_lt_two
  · rw [size_obj_cons, List.map_cons, List.sum_cons]
    omega

/-- An object is larger than the value of any of its fields. -/
theorem size_lt_of_mem {f : String × Json} {fields : List (String × Json)} (h : f ∈ fields) :
    f.2.size < (obj fields).size := by
  have hle : fieldSize f + 1 ≤ (fields.map fun f => fieldSize f + 1).sum :=
    List.single_le_sum (fun _ _ => Nat.zero_le _) _ (List.mem_map_of_mem h)
  have hlt := sum_fieldSize_lt fields
  have hvalue : f.2.size < fieldSize f := by
    rw [fieldSize]
    omega
  omega

/-- Two fields with different keys both have room in an object. -/
theorem size_of_two_fields {f g : String × Json} {fields : List (String × Json)} (hf : f ∈ fields)
    (hg : g ∈ fields) (hne : f.1 ≠ g.1) : fieldSize f + fieldSize g + 3 ≤ (obj fields).size := by
  obtain ⟨front, back, rfl⟩ := List.append_of_mem hf
  have hg' : g ∈ front ++ back := by
    rcases List.mem_append.1 hg with h | h
    · exact List.mem_append_left _ h
    · rcases List.mem_cons.1 h with rfl | h
      · exact absurd rfl hne
      · exact List.mem_append_right _ h
  have hle : fieldSize g + 1 ≤ ((front ++ back).map fun f => fieldSize f + 1).sum :=
    List.single_le_sum (fun _ _ => Nat.zero_le _) _ (List.mem_map_of_mem hg')
  have := sum_fieldSize_lt (front ++ f :: back)
  simp only [List.map_append, List.map_cons, List.sum_append, List.sum_cons] at this hle
  omega

theorem mem_of_lookup {key : String} {v : Json} :
    ∀ {fields : List (String × Json)}, fields.lookup key = some v → (key, v) ∈ fields
  | [], h => by simp at h
  | (k, w) :: rest, h => by
    rw [List.lookup_cons] at h
    by_cases hk : key == k
    · simp only [hk, Option.some.injEq] at h
      rw [eq_of_beq hk, h]
      exact List.mem_cons_self
    · simp only [hk] at h
      exact List.mem_cons_of_mem _ (mem_of_lookup h)

theorem get?_eq_some {key : String} {v w : Json} (h : w.get? key = some v) :
    ∃ fields, w = obj fields ∧ (key, v) ∈ fields := by
  cases w with
  | obj fields => exact ⟨fields, rfl, mem_of_lookup h⟩
  | _ => simp [get?] at h

@[simp]
theorem str?_eq_some {v : Json} {s : String} : v.str? = some s ↔ v = str s := by
  cases v <;> simp [str?]

theorem size_str (s : String) : (str s).size = (escape s.toList).utf8ByteSize + 2 := by
  have hquote : "\"".utf8ByteSize = 1 := rfl
  simp only [size, render, quote, String.utf8ByteSize_append, hquote]
  omega

theorem size_escapeChar_le (c : Char) : (escapeChar c).utf8ByteSize ≤ 6 * c.utf8Size := by
  have hpos := c.utf8Size_pos
  unfold escapeChar
  split_ifs with _ _ _ _ _ _ _ hc
  all_goals first
    | exact le_trans (by decide) (Nat.mul_le_mul_left 6 hpos)
    | skip
  · have hdigits : c.toNat / 16 < 2 ∧ c.toNat % 16 < 16 := by omega
    have hsize : ("\\u00" ++ hexByte c.toNat).utf8ByteSize = 6 := by
      exact (by decide : ∀ a < 2, ∀ b < 16,
        ("\\u00" ++ String.ofList [Nat.digitChar a, Nat.digitChar b]).utf8ByteSize = 6)
        _ hdigits.1 _ hdigits.2
    omega
  · rw [String.utf8ByteSize_singleton]
    omega

theorem size_escape_le (chars : List Char) :
    (escape chars).utf8ByteSize ≤ 6 * String.utf8Len chars := by
  induction chars with
  | nil => simp [escape]
  | cons c rest ih =>
    simp only [escape, String.utf8ByteSize_append, String.utf8Len_cons]
    have := size_escapeChar_le c
    omega

/-- Escaping a text takes at most six bytes for one, and the quotes two. -/
theorem size_str_le (s : String) : (str s).size ≤ 6 * s.utf8ByteSize + 2 := by
  have := size_escape_le s.toList
  rw [String.utf8Len_toList] at this
  rw [size_str]
  omega

theorem utf8Size_of_ascii {c : Char} (h : c.toNat < 128) : c.utf8Size = 1 := by
  rw [Char.utf8Size, if_pos]
  exact UInt32.le_iff_toNat_le.2 (Nat.le_of_lt_succ h)

theorem utf8Size_le_escapeChar (c : Char) : c.utf8Size ≤ (escapeChar c).utf8ByteSize := by
  by_cases hc : c.toNat < 128
  · rw [utf8Size_of_ascii hc]
    unfold escapeChar
    split_ifs
    all_goals first
      | decide
      | skip
    · rw [String.utf8ByteSize_append]
      exact le_trans (by decide : 1 ≤ "\\u00".utf8ByteSize) (Nat.le_add_right _ _)
    · rw [String.utf8ByteSize_singleton]
      exact c.utf8Size_pos
  · have hsingle : escapeChar c = String.singleton c := by
      have hquote : c ≠ '"' := fun h => hc (h ▸ by decide)
      have hslash : c ≠ '\\' := fun h => hc (h ▸ by decide)
      unfold escapeChar
      rw [if_neg hquote, if_neg hslash, if_neg, if_neg, if_neg, if_neg, if_neg, if_neg] <;> omega
    rw [hsingle, String.utf8ByteSize_singleton]

theorem utf8Len_le_escape (chars : List Char) :
    String.utf8Len chars ≤ (escape chars).utf8ByteSize := by
  induction chars with
  | nil => simp
  | cons c rest ih =>
    have hc := utf8Size_le_escapeChar c
    simp only [escape, String.utf8ByteSize_append, String.utf8Len_cons]
    omega

/-- A text has room in its JSON text. -/
theorem utf8ByteSize_le_str (s : String) : s.utf8ByteSize + 2 ≤ (str s).size := by
  have := utf8Len_le_escape s.toList
  rw [String.utf8Len_toList] at this
  rw [size_str]
  omega

theorem escape_append (s t : List Char) : escape (s ++ t) = escape s ++ escape t := by
  induction s with
  | nil => simp [escape]
  | cons c rest ih => simp [escape, ih, String.append_assoc]

/-- A character takes at most four bytes. -/
theorem utf8Len_le (chars : List Char) : String.utf8Len chars ≤ 4 * chars.length := by
  induction chars with
  | nil => simp
  | cons c rest ih =>
    have := c.utf8Size_le_four
    simp only [String.utf8Len_cons, List.length_cons]
    omega

theorem utf8Len_of_ascii : ∀ {chars : List Char}, (∀ c ∈ chars, c.toNat < 128) →
    String.utf8Len chars = chars.length
  | [], _ => rfl
  | c :: rest, h => by
    rw [String.utf8Len_cons, utf8Size_of_ascii (h c List.mem_cons_self),
      utf8Len_of_ascii fun d hd => h d (List.mem_cons_of_mem _ hd), List.length_cons]

theorem utf8ByteSize_toString (n : ℕ) : (toString n).utf8ByteSize = (toString n).length := by
  have hdigits : ∀ c ∈ (toString n).toList, c.toNat < 128 := fun c hc => by
    rw [Nat.toString_eq_ofList_toDigits, String.toList_ofList] at hc
    have hd := Nat.isDigit_of_mem_toDigits (by decide) (by decide) hc
    simp only [Char.isDigit, Bool.and_eq_true, decide_eq_true_eq] at hd
    have h9 : c.toNat ≤ 57 := UInt32.le_iff_toNat_le.1 hd.2
    omega
  have hlen := utf8Len_of_ascii hdigits
  rwa [String.utf8Len_toList, String.length_toList] at hlen

theorem size_nat (n : ℕ) : (nat n).size = (toString n).length := by
  simp only [nat, size, render, utf8ByteSize_toString]

/-- A whole number takes its digits, a point and a nought. -/
theorem size_f64 (n : ℕ) : (f64 n).size = (toString (min n (2 ^ 53))).length + 2 := by
  have hdot : ".0".utf8ByteSize = 2 := rfl
  simp only [f64, size, render, String.utf8ByteSize_append, hdot, utf8ByteSize_toString]

theorem size_f64_le (n : ℕ) : (f64 n).size ≤ 18 := by
  have hlen : (toString (min n (2 ^ 53))).length ≤ 16 :=
    Nat.repr_length _ 16 (by decide)
      (lt_of_le_of_lt (Nat.min_le_right n (2 ^ 53)) (by decide))
  rw [size_f64]
  omega

theorem size_opt_f64_le (n : Option ℕ) : (opt f64 n).size ≤ 18 := by
  cases n with
  | none => decide
  | some n => exact size_f64_le n

theorem size_bool_le (b : Bool) : 4 ≤ (bool b).size ∧ (bool b).size ≤ 5 := by
  cases b <;> decide

theorem infix_renderMoreItems {v : Json} : ∀ {items : List Json}, v ∈ items →
    v.render.toList <:+: (renderMoreItems items).toList
  | [], h => by simp at h
  | w :: rest, h => by
    rw [renderMoreItems, String.toList_append, String.toList_append]
    rcases List.mem_cons.1 h with rfl | h
    · exact List.infix_append _ _ _
    · exact (infix_renderMoreItems h).trans (List.suffix_append _ _).isInfix

/-- An item's text is a part of the array's. -/
theorem infix_render_arr {v : Json} {items : List Json} (h : v ∈ items) :
    v.render.toList <:+: (arr items).render.toList := by
  have hitems : v.render.toList <:+: (renderItems items).toList := by
    rcases items with _ | ⟨w, rest⟩
    · simp at h
    rw [renderItems, String.toList_append]
    rcases List.mem_cons.1 h with rfl | h
    · exact (List.prefix_append _ _).isInfix
    · exact (infix_renderMoreItems h).trans (List.suffix_append _ _).isInfix
  rw [render, String.toList_append, String.toList_append]
  exact hitems.trans (List.infix_append _ _ _)

theorem infix_renderMoreFields {f : String × Json} : ∀ {fields : List (String × Json)}, f ∈ fields →
    f.2.render.toList <:+: (renderMoreFields fields).toList
  | [], h => by simp at h
  | (k, w) :: rest, h => by
    rw [renderMoreFields, String.toList_append, String.toList_append]
    rcases List.mem_cons.1 h with rfl | h
    · exact List.infix_append _ _ _
    · exact (infix_renderMoreFields h).trans (List.suffix_append _ _).isInfix

/-- A field's text is a part of the object's. -/
theorem infix_render_obj {f : String × Json} {fields : List (String × Json)} (h : f ∈ fields) :
    f.2.render.toList <:+: (obj fields).render.toList := by
  have hfields : f.2.render.toList <:+: (renderFields fields).toList := by
    rcases fields with _ | ⟨⟨k, w⟩, rest⟩
    · simp at h
    rw [renderFields, String.toList_append, String.toList_append]
    rcases List.mem_cons.1 h with rfl | h
    · exact List.infix_append _ _ _
    · exact (infix_renderMoreFields h).trans (List.suffix_append _ _).isInfix
  rw [render, String.toList_append, String.toList_append]
  exact hfields.trans (List.infix_append _ _ _)

end Json

end LatteWork
