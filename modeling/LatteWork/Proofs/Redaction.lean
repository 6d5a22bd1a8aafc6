import LatteWork.Lib.Occurrence
import LatteWork.Runtime.Config

/-!
# What redaction leaves of a text

A redacted text has no occurrence of the credential, and put behind a text that has none it brings
one in only across the cut: from what was said since the last removal (`stretch`) into what the
text says before the first (`lead`).
-/

namespace LatteWork

open Occurrence

variable {p m : List Char}

/-- A text up to the first occurrence of `p`. -/
def lead (p : List Char) : List Char → List Char
  | [] => []
  | c :: rest => if p <+: c :: rest then [] else c :: lead p rest

/-- What was said since the last occurrence that `replaceChars` takes away, `before` being what
was said up to the text. -/
def stretch (p : List Char) : ℕ → List Char → List Char → List Char
  | _, before, [] => before
  | n + 1, before, _ :: rest => stretch p n before rest
  | 0, before, c :: rest =>
    if p <+: c :: rest then stretch p (p.length - 1) [] rest
    else stretch p 0 (before ++ [c]) rest

theorem lead_front : ∀ t : List Char, lead p t <+: t
  | [] => List.prefix_rfl
  | c :: rest => by
    rw [lead]
    split
    · exact List.nil_prefix
    · exact List.prefix_cons_inj c |>.2 (lead_front rest)

/-- The ends a text has after redaction are ends of what was said since the last removal. -/
theorem tails_replace (hm : m ≠ []) : ∀ (t : List Char) (n : ℕ) (a w : List Char), Tails m a w →
    Tails m (a ++ replaceChars p m n t) (stretch p n w t)
  | [], n, a, w, h => by simpa [replaceChars, stretch] using h
  | _ :: rest, n + 1, a, w, h => by
    simpa only [replaceChars, stretch] using tails_replace hm rest n a w h
  | c :: rest, 0, a, w, h => by
    simp only [replaceChars, stretch]
    split
    · rw [← List.append_assoc]
      exact tails_replace hm rest _ _ _ (.marker hm a [])
    · rw [List.append_cons]
      exact tails_replace hm rest 0 _ _ h.concat

/-- A redacted text brings an occurrence into a text only across the cut. -/
theorem clean_replace (hp : p ≠ []) (hm : m ≠ []) (hd : p.Disjoint m) :
    ∀ (t : List Char) (n : ℕ) (a w : List Char), Tails m a w → ¬p <:+: a →
      (n = 0 → ¬Straddles p w (lead p t)) → (n ≠ 0 → w = []) → ¬p <:+: a ++ replaceChars p m n t
  | [], n, a, w, _, ha, _, _ => by simpa [replaceChars] using ha
  | _ :: rest, n + 1, a, w, h, ha, _, hw => by
    obtain rfl := hw (by omega)
    simp only [replaceChars]
    exact clean_replace hp hm hd rest n a [] h ha (fun _ => not_straddles_nil) fun _ => rfl
  | c :: rest, 0, a, w, h, ha, hs, _ => by
    simp only [replaceChars, lead] at hs ⊢
    split
    · rw [← List.append_assoc]
      refine clean_replace hp hm hd rest _ _ [] (.marker hm a []) ?_ (fun _ => not_straddles_nil)
        fun _ => rfl
      rw [infix_append]
      rintro (h | h | h)
      · exact ha h
      · exact not_infix_of_disjoint hp hd h
      · exact not_straddles_marker hd h
    · rename_i hno
      have hs : ¬Straddles p w (c :: lead p rest) := by simpa [hno] using hs
      rw [List.append_cons]
      refine clean_replace hp hm hd rest 0 _ _ h.concat ?_ (fun _ hcross => ?_) (by simp)
      · rw [infix_append]
        rintro (h' | h' | h')
        · exact ha h'
        · obtain ⟨x, y, hxy⟩ := h'
          obtain ⟨u, d, rfl⟩ := p.eq_nil_or_concat.resolve_left hp
          have hlen := congrArg List.length hxy
          simp only [List.length_append, List.concat_eq_append, List.length_cons,
            List.length_nil] at hlen
          obtain rfl : u = [] := List.length_eq_zero_iff.1 (by omega)
          obtain rfl : x = [] := List.length_eq_zero_iff.1 (by omega)
          exact hno (by simp_all)
        · obtain ⟨u, v, hu, hv, rfl, hua, hvc⟩ := (h.straddles hd h').parts
          exact hs (.of_append hu hv hua (hvc.trans (by simp)))
      · obtain ⟨u, v, hu, hv, rfl, hua, hvc⟩ := hcross.parts
        obtain ⟨u, d, rfl⟩ := u.eq_nil_or_concat.resolve_left hu
        obtain ⟨x, hx⟩ := hua
        simp only [List.concat_eq_append, ← List.append_assoc] at hx
        obtain ⟨rfl, hdc⟩ := List.append_inj' hx rfl
        obtain rfl : d = c := by simpa using hdc
        rcases u.eq_nil_or_concat with rfl | ⟨u', e, rfl⟩
        · exact hno (by simpa using hvc.trans (lead_front rest))
        · refine hs ?_
          rw [show (u'.concat e).concat d ++ v = u'.concat e ++ (d :: v) by simp]
          exact .of_append (by simp) (by simp) ⟨x, rfl⟩ (by simpa using hvc)

/-- Where the marker does not show, nothing was replaced. -/
theorem replace_unmarked {c : Char} (hc : c ∈ m) :
    ∀ t : List Char, c ∉ replaceChars p m 0 t → replaceChars p m 0 t = t
  | [], _ => rfl
  | d :: rest, h => by
    simp only [replaceChars] at h ⊢
    split at h
    · exact absurd (List.mem_append_left _ hc) h
    · rename_i hno
      rw [if_neg hno, replace_unmarked hc rest fun hmem => h (List.mem_cons_of_mem _ hmem)]

/-- The characters of the redaction marker. -/
def marker : List Char := ['[', 'r', 'e', 'd', 'a', 'c', 't', 'e', 'd', ']']

theorem marker_eq : "[redacted]".toList = marker := rfl

namespace LaunchConfig

variable {config : LaunchConfig} {provider : ResolvedProvider} {p : List Char}

/-- The configuration redacts a credential, and nothing of it could be part of the marker. -/
structure Redacts (config : LaunchConfig) (p : List Char) : Prop where
  redact : ∀ text, (config.redact text).toList = replaceChars p marker 0 text.toList
  nonempty : p ≠ []
  apart : p.Disjoint marker

theorem redacts (hc : config.provider = some provider) (hne : provider.credential ≠ "")
    (hd : provider.credential.toList.Disjoint marker) :
    config.Redacts provider.credential.toList where
  redact text := by
    rw [LaunchConfig.redact, hc]
    dsimp only
    rw [if_neg hne, String.toList_ofList, marker_eq]
  nonempty h := hne (String.toList_eq_nil_iff.1 h)
  apart := hd

namespace Redacts

theorem clean (h : config.Redacts p) (text : String) : ¬p <:+: (config.redact text).toList := by
  have hclean := clean_replace h.nonempty (by decide) h.apart text.toList 0 [] [] (.refl _ _)
    (by simpa using h.nonempty) (fun _ => not_straddles_nil) (by simp)
  rwa [List.nil_append, ← h.redact] at hclean

/-- A word without the marker's first letter is what it was before. -/
theorem redact_word (h : config.Redacts p) {text : String}
    (hword : '[' ∉ (config.redact text).toList) : config.redact text = text := by
  rw [h.redact] at hword
  rw [← String.toList_inj, h.redact]
  exact replace_unmarked (by decide) _ hword

end Redacts

end LaunchConfig

mutual

/-- The strings in a value, its object keys left out. -/
def Json.strings : Json → List String
  | .str s => [s]
  | .arr items => itemStrings items
  | .obj fields => fieldStrings fields
  | _ => []

def Json.itemStrings : List Json → List String
  | [] => []
  | v :: rest => v.strings ++ itemStrings rest

def Json.fieldStrings : List (String × Json) → List String
  | [] => []
  | (_, v) :: rest => v.strings ++ fieldStrings rest

end

mutual

theorem Json.strings_mapStrings (f : String → String) :
    ∀ v : Json, (v.mapStrings f).strings = v.strings.map f
  | .null => rfl
  | .bool _ => rfl
  | .num _ => rfl
  | .str _ => rfl
  | .arr items => by simpa only [mapStrings, strings] using itemStrings_mapItems f items
  | .obj fields => by simpa only [mapStrings, strings] using fieldStrings_mapFields f fields

theorem Json.itemStrings_mapItems (f : String → String) :
    ∀ items : List Json, itemStrings (mapItems f items) = (itemStrings items).map f
  | [] => rfl
  | v :: rest => by
    simp only [mapItems, itemStrings, List.map_append, strings_mapStrings f v,
      itemStrings_mapItems f rest]

theorem Json.fieldStrings_mapFields (f : String → String) :
    ∀ fields : List (String × Json), fieldStrings (mapFields f fields) = (fieldStrings fields).map f
  | [] => rfl
  | (_, v) :: rest => by
    simp only [mapFields, fieldStrings, List.map_append, strings_mapStrings f v,
      fieldStrings_mapFields f rest]

end

end LatteWork
