import LatteWork.Proofs.JsonReading
import LatteWork.Workbench.References

/-!
# Manifests of references

The server looks for a shorter marker than the client, and reads less strictly. A manifest that the
client reads has no marker in it, so both find the same one, and the server reads the same
references from it as long as their paths and names are not too long for it. What the client writes
is read back by both.
-/

namespace LatteWork

/-! ### The last occurrence -/

section

variable {p text front rest : List Char} {i j : ℕ}

/-- What is not found does not occur. -/
theorem rfind_none (hp : p ≠ []) : ∀ {text : List Char} {i : ℕ}, rfind p i text = none →
    ∀ front rest, text ≠ front ++ p ++ rest
  | [], _, _, front, rest => by simp [hp]
  | c :: text, i, h, front, rest => by
    rw [rfind] at h
    split at h
    · cases h
    · rename_i hnone
      split at h
      · cases h
      · rename_i hhere
        rintro heq
        cases front with
        | nil => exact hhere (List.isPrefixOf_iff_prefix.2 ⟨rest, heq.symm⟩)
        | cons d front => exact rfind_none hp hnone front rest (List.cons.inj heq).2

/-- The last occurrence of a text is where it is found. -/
theorem rfind_spec (hp : p ≠ []) : ∀ {text : List Char} {i j : ℕ} {rest : List Char},
    rfind p i text = some (j, rest) →
      ∃ front, text = front ++ p ++ rest ∧ j = i + front.length ∧
        ∀ front' rest', text = front' ++ p ++ rest' → front'.length ≤ front.length
  | [], _, _, _, h => by cases h
  | c :: text, i, j, rest, h => by
    rw [rfind] at h
    split at h
    · rename_i found hfound
      obtain rfl := Option.some.inj h
      obtain ⟨front, htext, hj, hlast⟩ := rfind_spec hp hfound
      refine ⟨c :: front, by rw [htext]; rfl, by rw [hj, List.length_cons]; omega,
        fun front' rest' h' => ?_⟩
      cases front' with
      | nil => exact Nat.zero_le _
      | cons d front' =>
        have := hlast front' rest' (List.cons.inj h').2
        simpa using this
    · rename_i hnone
      split at h
      · rename_i hhere
        obtain ⟨t, ht⟩ := List.isPrefixOf_iff_prefix.1 hhere
        obtain ⟨rfl, rfl⟩ := Prod.mk.inj (Option.some.inj h)
        refine ⟨[], by rw [← ht, List.drop_left]; rfl, rfl, fun front' rest' h' => ?_⟩
        cases front' with
        | nil => exact Nat.le_refl _
        | cons d front' => exact absurd (List.cons.inj h').2 (rfind_none hp hnone front' rest')
      · cases h

/-- A text is found where it occurs last. -/
theorem rfind_eq (hp : p ≠ []) (h : text = front ++ p ++ rest)
    (hlast : ∀ front' rest', text = front' ++ p ++ rest' → front'.length ≤ front.length) :
    rfind p 0 text = some (front.length, rest) := by
  cases hf : rfind p 0 text with
  | none => exact absurd h (rfind_none hp hf front rest)
  | some found =>
    obtain ⟨j, rest'⟩ := found
    obtain ⟨front', htext, hj, hlast'⟩ := rfind_spec hp hf
    have hlength : front'.length = front.length :=
      Nat.le_antisymm (hlast _ _ htext) (hlast' _ _ h)
    have happ : front' ++ (p ++ rest') = front ++ (p ++ rest) := by
      rw [← List.append_assoc, ← List.append_assoc, ← htext, h]
    obtain ⟨rfl, hrest⟩ := List.append_inj happ hlength
    rw [hj, List.append_cancel_left hrest, Nat.zero_add]

end

/-! ### One marker for both -/

/-- A marker of the server: a line that does not begin with a character of ASCII. -/
structure Marker (marker : List Char) : Prop where
  line : ∃ c body, marker = '\n' :: c :: (body ++ ['\n']) ∧ 128 ≤ c.toNat ∧ '\n' ∉ c :: body

theorem Marker.ne_nil {marker : List Char} (h : Marker marker) : marker ≠ [] := by
  obtain ⟨c, body, rfl, -⟩ := h.line
  exact List.cons_ne_nil _ _

theorem compactMarker_marker : Marker TaskSource.compactMarker.toList :=
  ⟨'引', TaskSource.compactMarker.toList.tail.tail.dropLast, by decide, by decide, by decide⟩

theorem marker_marker : Marker TaskSource.marker.toList :=
  ⟨'文', TaskSource.marker.toList.tail.tail.dropLast, by decide +kernel, by decide,
    by decide +kernel⟩

/-- Behind a marker that a JSON text follows, no marker begins. -/
theorem Marker.last {marker other front raw front' rest : List Char} (h : Marker marker)
    (ho : Marker other) (hraw : Json.Tidy ('\n' :: raw))
    (heq : front ++ marker ++ raw = front' ++ other ++ rest) : front'.length ≤ front.length := by
  obtain ⟨c, body, rfl, -, hbody⟩ := h.line
  obtain ⟨d, other, rfl, hd, -⟩ := ho.line
  have hinside : ∀ u, '\n' :: raw ≠ u ++ ('\n' :: d :: (other ++ ['\n']) ++ rest) := by
    intro u hu
    have hinfix : ['\n', d] <:+: '\n' :: raw := ⟨u, other ++ ['\n'] ++ rest, by rw [hu]; simp⟩
    have hchain := List.IsChain.infix hraw hinfix
    exact absurd ((List.isChain_cons_cons.1 hchain).1 rfl) (by omega)
  by_contra hlt
  rw [List.append_assoc, List.append_assoc] at heq
  rcases List.append_eq_append_iff.1 heq with ⟨u, hu, hrest⟩ | ⟨u, hu, -⟩
  · cases u with
    | nil => simp [hu] at hlt
    | cons x u =>
      have hsplit : c :: body ++ '\n' :: raw = u ++ ('\n' :: d :: (other ++ ['\n']) ++ rest) := by
        simpa using (List.cons.inj hrest).2
      rcases List.append_eq_append_iff.1 hsplit with ⟨w, -, hw⟩ | ⟨w, hw, hw'⟩
      · exact hinside w hw
      · cases w with
        | nil => exact hinside [] hw'.symm
        | cons y w =>
          obtain rfl : '\n' = y := (List.cons.inj hw').1
          exact hbody (by rw [hw]; simp)
  · rw [hu, List.length_append] at hlt
    omega

/-- The two markers do not begin at one place. -/
theorem markers_apart {text front rest front' rest' : List Char}
    (h : text = front ++ TaskSource.marker.toList ++ rest)
    (h' : text = front' ++ TaskSource.compactMarker.toList ++ rest') :
    front.length ≠ front'.length := by
  intro hlength
  have hlong : TaskSource.marker.toList = '\n' :: '文' :: TaskSource.marker.toList.tail.tail := by
    decide +kernel
  have hcompact : TaskSource.compactMarker.toList =
      '\n' :: '引' :: TaskSource.compactMarker.toList.tail.tail := by
    decide +kernel
  rw [hlong, List.append_assoc] at h
  rw [h, hcompact, List.append_assoc] at h'
  have hsame := (List.append_inj h' hlength).2
  injection hsame with _ hsame
  injection hsame with hchar _
  exact absurd hchar (by decide)

/-- Of two findings the later, the second where both are at one place. -/
def later : Option (ℕ × List Char) → Option (ℕ × List Char) → Option (ℕ × List Char)
  | some x, some y => some (if x.1 ≤ y.1 then y else x)
  | found, none => found
  | none, found => found

/-- Of two texts the one that occurs last is found, and what follows it. -/
theorem later_eq {a b text front found rest : List Char} (ha : a ≠ []) (hb : b ≠ [])
    (hapart : ∀ front rest front' rest', text = front ++ a ++ rest → text = front' ++ b ++ rest' →
      front.length ≠ front'.length)
    (h : text = front ++ found ++ rest) (hfound : found = a ∨ found = b)
    (hlast : ∀ other, other = a ∨ other = b → ∀ front' rest', text = front' ++ other ++ rest' →
      front'.length ≤ front.length) :
    later (rfind a 0 text) (rfind b 0 text) = some (front.length, rest) := by
  rcases hfound with rfl | rfl
  · rw [rfind_eq ha h (hlast _ (.inl rfl))]
    cases hf : rfind b 0 text with
    | none => rfl
    | some x =>
      obtain ⟨front', htext, hj, -⟩ := rfind_spec hb hf
      have hle := hlast _ (.inr rfl) _ _ htext
      have hne := hapart _ _ _ _ h htext
      have hlt : ¬front.length ≤ x.1 := by omega
      simp only [later, hlt, if_false]
  · rw [rfind_eq hb h (hlast _ (.inr rfl))]
    cases hf : rfind a 0 text with
    | none => rfl
    | some x =>
      obtain ⟨front', htext, hj, -⟩ := rfind_spec ha hf
      have hle := hlast _ (.inl rfl) _ _ htext
      have hge : x.1 ≤ front.length := by omega
      simp only [later, hge, if_true]

/-- A marker of the server. -/
def IsMarker (marker : List Char) : Prop :=
  marker = TaskSource.marker.toList ∨ marker = TaskSource.compactMarker.toList

theorem IsMarker.marker {marker : List Char} (h : IsMarker marker) : Marker marker := by
  rcases h with h | h
  · rw [h]
    exact marker_marker
  · rw [h]
    exact compactMarker_marker

/-- Where a JSON text follows a marker, the server reads that. -/
theorem references_of_marker {parse : String → Option Json} {text : String}
    {front marker raw : List Char} (h : text.toList = front ++ marker ++ raw)
    (hmarker : IsMarker marker) (hraw : Json.Tidy ('\n' :: raw)) :
    references parse text =
      match parse (String.ofList raw) with
      | some (.arr refs) => (refs.take 20).filterMap reference
      | _ => [] := by
  have hfound := later_eq marker_marker.ne_nil compactMarker_marker.ne_nil
    (fun _ _ _ _ => markers_apart) h hmarker fun other ho front' rest' h' =>
      hmarker.marker.last (IsMarker.marker ho) hraw (h.symm.trans h')
  have heq : references parse text =
      match (later (rfind TaskSource.marker.toList 0 text.toList)
        (rfind TaskSource.compactMarker.toList 0 text.toList)).bind
          fun p => parse (String.ofList p.2) with
      | some (.arr refs) => (refs.take 20).filterMap reference
      | _ => [] := rfl
  rw [heq, hfound, Option.bind_some]

theorem referenceMarker_toList :
    referenceMarker.toList = '\n' :: TaskSource.compactMarker.toList := by
  rw [referenceMarker, String.toList_append]
  rfl

theorem legacyReferenceMarker_toList :
    legacyReferenceMarker.toList = '\n' :: TaskSource.marker.toList := by
  rw [legacyReferenceMarker, String.toList_append]
  rfl

theorem lastMarker_eq (text : List Char) :
    lastMarker text =
      later (rfind legacyReferenceMarker.toList 0 text) (rfind referenceMarker.toList 0 text) := by
  unfold lastMarker later
  rcases rfind referenceMarker.toList 0 text with _ | a <;>
    rcases rfind legacyReferenceMarker.toList 0 text with _ | b <;> rfl

/-- The marker of the client that is found has one of the server in it. -/
theorem lastMarker_spec {text raw : List Char} {index : ℕ} (h : lastMarker text = some (index, raw)) :
    ∃ front marker, text = front ++ ('\n' :: marker) ++ raw ∧ IsMarker marker ∧
      index = front.length := by
  rw [lastMarker_eq] at h
  have hcompact : ∀ {found}, rfind referenceMarker.toList 0 text = some found →
      ∃ front marker, text = front ++ ('\n' :: marker) ++ found.2 ∧ IsMarker marker ∧
        found.1 = front.length := by
    intro found hf
    obtain ⟨front, htext, hj, -⟩ := rfind_spec (by rw [referenceMarker_toList]; simp) hf
    exact ⟨front, _, referenceMarker_toList ▸ htext, .inr rfl, by omega⟩
  have hlong : ∀ {found}, rfind legacyReferenceMarker.toList 0 text = some found →
      ∃ front marker, text = front ++ ('\n' :: marker) ++ found.2 ∧ IsMarker marker ∧
        found.1 = front.length := by
    intro found hf
    obtain ⟨front, htext, hj, -⟩ := rfind_spec (by rw [legacyReferenceMarker_toList]; simp) hf
    exact ⟨front, _, legacyReferenceMarker_toList ▸ htext, .inl rfl, by omega⟩
  cases ha : rfind referenceMarker.toList 0 text with
  | none =>
    cases hb : rfind legacyReferenceMarker.toList 0 text with
    | none => simp [ha, hb, later] at h
    | some b =>
      obtain rfl : b = (index, raw) := by simpa [ha, hb, later] using h
      exact hlong hb
  | some a =>
    cases hb : rfind legacyReferenceMarker.toList 0 text with
    | none =>
      obtain rfl : a = (index, raw) := by simpa [ha, hb, later] using h
      exact hcompact ha
    | some b =>
      rw [ha, hb] at h
      simp only [later, Option.some.injEq] at h
      split at h
      · subst h
        exact hcompact ha
      · subst h
        exact hlong hb

/-! ### One entry -/

theorem utf16Length_le (s : String) : utf16Length s ≤ s.utf8ByteSize := by
  have hlist : ∀ chars : List Char, (chars.map fun c => if 0x10000 ≤ c.toNat then 2 else 1).sum ≤
      (String.ofList chars).utf8ByteSize := by
    intro chars
    induction chars with
    | nil => simp
    | cons c chars ih =>
      have hsize : (if 0x10000 ≤ c.toNat then 2 else 1) ≤ c.utf8Size := by
        have hpos := c.utf8Size_pos
        split
        · rename_i hc
          have hval : c.toNat = c.val.toNat := rfl
          unfold Char.utf8Size
          dsimp only
          split_ifs with h₁ h₂ h₃
          · exact absurd (UInt32.le_iff_toNat_le.1 h₁) (by simp; omega)
          · exact Nat.le_refl _
          · omega
          · omega
        · omega
      rw [String.ofList_cons, String.utf8ByteSize_append, String.utf8ByteSize_singleton,
        List.map_cons, List.sum_cons]
      omega
  have h := hlist s.toList
  rwa [String.ofList_toList] at h

/-- The server reads an entry that the client reads, unless its texts are too long in bytes. -/
theorem reference_of_message {entry : Json} {r : ComposerReference}
    (h : messageReference entry = some r) (hpath : r.path.utf8ByteSize ≤ 4096)
    (hname : r.name.utf8ByteSize ≤ 256 ∨ r.name = lastSegment r.path) :
    ∃ source, reference entry = some source ∧ source.path = some r.path ∧
      source.kind = (if r.directory then SourceKind.directory else .file) ∧ source.name = r.name := by
  unfold messageReference at h
  simp only [Option.bind_eq_bind, Option.bind_eq_some_iff, Option.some.injEq] at h
  obtain ⟨_, -, path, hp, directory, hdir, kind, -, name, hn, mime, -, rfl⟩ := h
  obtain ⟨hget, hok⟩ := Option.filter_eq_some_iff.1 hp
  simp only [decide_eq_true_eq] at hok
  have hserver : ((entry.get? "path").bind Json.str?).filter (fun p =>
      p ≠ "" ∧ p.utf8ByteSize ≤ 4096 ∧ Char.ofNat 0 ∉ p.toList) = some path := by
    rw [Option.filter_eq_some_iff]
    exact ⟨hget, by simpa using ⟨hok.1, hpath, hok.2.2⟩⟩
  have hkind : ((entry.get? "type").bind Json.str?).bind (fun t =>
      if t = "file" then some SourceKind.file else if t = "directory" then some .directory else none) =
        some (if directory then SourceKind.directory else .file) := by
    obtain ⟨t, ⟨v, hv, ht⟩, hdir⟩ := hdir
    rw [hv, Option.bind_some, ht, Option.bind_some]
    split_ifs at hdir ⊢ <;> simp_all
  have hnamed : (((entry.get? "name").bind Json.str?).filter fun s =>
      s ≠ "" ∧ s.utf8ByteSize ≤ 256).getD ((pathParts path).getLast?.getD path) =
        name.getD (lastSegment path) := by
    unfold optionalField at hn
    cases hv : entry.get? "name" with
    | none =>
      rw [hv] at hn
      obtain rfl : none = name := Option.some.inj hn
      rfl
    | some v =>
      rw [hv] at hn
      obtain ⟨s, hs, rfl⟩ := Option.map_eq_some_iff.1 hn
      obtain ⟨hs, hok⟩ := Option.filter_eq_some_iff.1 hs
      simp only [decide_eq_true_eq] at hok
      rw [Option.bind_some, hs, Option.getD_some]
      by_cases hlong : s.utf8ByteSize ≤ 256
      · simp [Option.filter, hok.1, hlong]
      · have hderived : s = lastSegment path := hname.resolve_left hlong
        simp only [Option.filter, hlong, and_false, decide_false]
        exact hderived.symm
  have hread : reference entry = some
      { id := "file:" ++ path
        name := (((entry.get? "name").bind Json.str?).filter fun s =>
          s ≠ "" ∧ s.utf8ByteSize ≤ 256).getD ((pathParts path).getLast?.getD path)
        kind := if directory then SourceKind.directory else .file
        path := some path
        mimeType := ((entry.get? "mime_type").bind Json.str?).filter fun s => s.utf8ByteSize ≤ 128
        tools := []
        uses := 0 } := by
    unfold reference
    simp only [Option.bind_eq_bind, hserver, hkind, Option.bind_some]
  exact ⟨_, hread, rfl, rfl, hnamed⟩

/-- What both sides know of a reference. -/
def TaskSource.shown (source : TaskSource) : Option String × SourceKind × String :=
  (source.path, source.kind, source.name)

def ComposerReference.shown (r : ComposerReference) : Option String × SourceKind × String :=
  (some r.path, if r.directory then .directory else .file, r.name)

/-- The texts of a reference are not too long in bytes. -/
def ComposerReference.Short (r : ComposerReference) : Prop :=
  r.path.utf8ByteSize ≤ 4096 ∧ (r.name.utf8ByteSize ≤ 256 ∨ r.name = lastSegment r.path)

theorem references_of_messages : ∀ {entries : List Json} {refs : List ComposerReference},
    entries.mapM messageReference = some refs → (∀ r ∈ refs, r.Short) →
    (entries.filterMap reference).map TaskSource.shown = refs.map ComposerReference.shown
  | [], refs, h, _ => by
    obtain rfl : [] = refs := by simpa using h
    rfl
  | entry :: entries, refs, h, hshort => by
    rw [List.mapM_cons] at h
    simp only [Option.bind_eq_bind, Option.bind_eq_some_iff, Option.pure_def, Option.some.injEq] at h
    obtain ⟨r, hr, rest, hrest, rfl⟩ := h
    have hone := hshort r List.mem_cons_self
    obtain ⟨source, hsource, hpath, hkind, hname⟩ := reference_of_message hr hone.1 hone.2
    have ih := references_of_messages hrest fun r hr => hshort r (List.mem_cons_of_mem _ hr)
    rw [List.filterMap_cons, hsource, List.map_cons, List.map_cons, ih, TaskSource.shown,
      ComposerReference.shown, hpath, hkind, hname]

theorem tidy_break {raw : List Char} {v : Json} (h : Json.parse raw = some v) :
    Json.Tidy ('\n' :: raw) := by
  have hbreak : Json.parse ('\n' :: raw) = Json.parse raw := rfl
  exact Json.tidy_of_parse (hbreak.trans h)

/-! ### The two readers -/

/-- An object of strings. -/
def Json.OfTexts (v : Json) : Prop :=
  (∃ fields, v = .obj fields) ∧ ∀ key w, v.get? key = some w → ∃ s, w = .str s

/-- The same value under every key, in whatever order the keys stand. -/
def Json.SameFields (v w : Json) : Prop := ∀ key, v.get? key = w.get? key

/-- `serde_json` reads the objects of strings that `JSON.parse` reads. -/
def ReadsManifests (parse : String → Option Json) : Prop :=
  ∀ raw entries, Json.parse raw = some (.arr entries) → (∀ e ∈ entries, e.OfTexts) →
    ∃ entries', parse (String.ofList raw) = some (.arr entries') ∧
      List.Forall₂ Json.SameFields entries entries'

/-- The client reads only strings. -/
theorem ofTexts_of_message {entry : Json} {r : ComposerReference}
    (h : messageReference entry = some r) : entry.OfTexts := by
  unfold messageReference at h
  simp only [Option.bind_eq_bind, Option.bind_eq_some_iff, Option.some.injEq] at h
  obtain ⟨_, hentry, path, hp, directory, hdir, kind, hk, name, hn, mime, hm, -⟩ := h
  cases entry with
  | obj fields =>
    refine ⟨⟨fields, rfl⟩, fun key w hw => ?_⟩
    have hkey : key ∈ manifestKeys := by
      have hall : isEntry (.obj fields) = true := by simpa [guard] using hentry
      have := List.all_eq_true.1 hall (key, w) (Assoc.mem_of_lookup hw)
      simpa using this
    have hread : ∀ {α : Type} {read : Json → Option α} {found : Option α},
        optionalField (.obj fields) key read = some found → ∃ a, read w = some a := by
      intro α read found hfound
      rw [optionalField, hw] at hfound
      obtain ⟨a, ha, -⟩ := Option.map_eq_some_iff.1 hfound
      exact ⟨a, ha⟩
    have htext : ∀ s, w.str? = some s → ∃ s, w = .str s := by
      intro s hs
      cases w <;> first | exact ⟨_, rfl⟩ | cases hs
    simp only [manifestKeys, List.mem_cons, List.not_mem_nil, or_false] at hkey
    rcases hkey with rfl | rfl | rfl | rfl | rfl
    · obtain ⟨hp, -⟩ := Option.filter_eq_some_iff.1 hp
      rw [hw] at hp
      exact htext _ hp
    · obtain ⟨t, ht, -⟩ := hdir
      obtain ⟨v, hv, ht⟩ := ht
      rw [hw] at hv
      obtain rfl := Option.some.inj hv
      exact htext _ ht
    · obtain ⟨s, hs⟩ := hread hn
      exact htext _ (Option.filter_eq_some_iff.1 hs).1
    · obtain ⟨k, hs⟩ := hread hk
      obtain ⟨s, hs, -⟩ := Option.bind_eq_some_iff.1 hs
      exact htext _ hs
    · obtain ⟨s, hs⟩ := hread hm
      exact htext _ (Option.filter_eq_some_iff.1 hs).1
  | _ => simp [isEntry, guard] at hentry

theorem ofTexts_of_messages {entries : List Json} {refs : List ComposerReference}
    (h : entries.mapM messageReference = some refs) : ∀ e ∈ entries, e.OfTexts := by
  induction entries generalizing refs with
  | nil => simp
  | cons entry entries ih =>
    rw [List.mapM_cons] at h
    simp only [Option.bind_eq_bind, Option.bind_eq_some_iff, Option.pure_def, Option.some.injEq] at h
    obtain ⟨r, hr, rest, hrest, -⟩ := h
    intro e he
    rcases List.mem_cons.1 he with rfl | he
    · exact ofTexts_of_message hr
    · exact ih hrest e he

/-- The order of an entry's fields does not matter to the server. -/
theorem reference_congr {v w : Json} (h : v.SameFields w) : reference v = reference w := by
  unfold reference
  dsimp only
  rw [h "path", h "type", h "name", h "mime_type"]

theorem filterMap_reference_congr {entries entries' : List Json}
    (h : List.Forall₂ Json.SameFields entries entries') :
    entries'.filterMap reference = entries.filterMap reference := by
  induction h with
  | nil => rfl
  | cons hone _ ih => rw [List.filterMap_cons, List.filterMap_cons, reference_congr hone, ih]

/-- What the client reads of a manifest. -/
theorem manifestReferences_cases {raw : List Char} {refs : List ComposerReference}
    (h : manifestReferences raw = some refs) :
    ∃ entries, Json.parse raw = some (.arr entries) ∧ entries ≠ [] ∧ entries.length ≤ 20 ∧
      entries.mapM messageReference = some refs := by
  unfold manifestReferences at h
  split at h
  · cases h
  · split at h
    · rename_i entries hparse
      split at h
      · cases h
      · rename_i hbounds
        rw [not_or] at hbounds
        exact ⟨entries, hparse, hbounds.1, Nat.le_of_not_lt hbounds.2, h⟩
    · cases h

/-- The server reads the manifest that the client reads. -/
theorem shown_references {parse : String → Option Json} (hparse : ReadsManifests parse)
    {text : String} {index : ℕ} {raw : List Char} {refs : List ComposerReference}
    (hmarker : lastMarker text.toList = some (index, raw))
    (hrefs : manifestReferences raw = some refs) (hshort : ∀ r ∈ refs, r.Short) :
    (references parse text).map TaskSource.shown = refs.map ComposerReference.shown := by
  obtain ⟨entries, hv, -, hlength, hall⟩ := manifestReferences_cases hrefs
  obtain ⟨front, marker, htext, hm, -⟩ := lastMarker_spec hmarker
  obtain ⟨entries', hv', hsame⟩ := hparse raw entries hv (ofTexts_of_messages hall)
  have htext' : text.toList = (front ++ ['\n']) ++ marker ++ raw := by simp [htext]
  rw [references_of_marker htext' hm (tidy_break hv), hv']
  dsimp only
  rw [List.take_of_length_le (hsame.length_eq ▸ hlength), filterMap_reference_congr hsame]
  exact references_of_messages hall hshort

theorem readsManifests_parse : ReadsManifests fun text => Json.parse text.toList := by
  intro raw entries h _
  refine ⟨entries, by simpa using h, ?_⟩
  exact List.forall₂_same.2 fun e _ key => rfl

/-- A prompt with one image. -/
def shownManifest : String :=
  "看图" ++ referenceMarker ++ "[\x7b\"path\":\"图/a.png\",\"type\":\"file\",\"kind\":\"image\"\x7d]"

/-- A prompt with a manifest behind a single line break. -/
def shortManifest : String :=
  "看图" ++ TaskSource.compactMarker ++ "[\x7b\"path\":\"a\",\"type\":\"file\"\x7d]"

/-- The bounds of what a manifest refers to. -/
structure ComposerReference.Bounded (r : ComposerReference) : Prop where
  path : r.path ≠ "" ∧ r.path.utf8ByteSize ≤ 4096 ∧ Char.ofNat 0 ∉ r.path.toList
  name : r.name ≠ "" ∧ r.name.utf8ByteSize ≤ 256
  kind : r.attachmentKind = none ∨
    r.attachmentKind = some (LatteWork.attachmentKind r.name (r.mimeType.getD "")) ∨
      r.attachmentKind = some .text

/-- The reference that a manifest gives back. -/
def ComposerReference.readBack (r : ComposerReference) : ComposerReference :=
  { path := r.path
    name := r.name
    directory := r.directory
    attachmentKind :=
      if r.directory = false ∧ referenceKind r ≠ .file then some (referenceKind r) else none }

/-- What a message shows of a reference: of a file also its kind. -/
def ComposerReference.view (r : ComposerReference) :
    String × String × Bool × Option AttachmentKind :=
  (r.path, r.name, r.directory, if r.directory then none else some (referenceKind r))

theorem manifestEntry_textual (r : ComposerReference) : (manifestEntry r).Textual := by
  unfold manifestEntry
  split_ifs <;> simp [Json.Textual, Json.TextualFields]

theorem textualItems_map : ∀ refs : List ComposerReference,
    Json.TextualItems (refs.map manifestEntry)
  | [] => trivial
  | r :: refs => ⟨manifestEntry_textual r, textualItems_map refs⟩

theorem isEntry_manifestEntry (r : ComposerReference) : isEntry (manifestEntry r) = true := by
  unfold manifestEntry isEntry
  split_ifs <;> simp [manifestKeys]

@[simp]
theorem get?_path (r : ComposerReference) : (manifestEntry r).get? "path" = some (.str r.path) := rfl

@[simp]
theorem get?_type (r : ComposerReference) : (manifestEntry r).get? "type" =
    some (.str (if r.directory then "directory" else "file")) := rfl

@[simp]
theorem get?_name (r : ComposerReference) : (manifestEntry r).get? "name" =
    if r.name ≠ lastSegment r.path then some (.str r.name) else none := by
  unfold manifestEntry Json.get?
  split_ifs <;> simp [List.lookup_cons]

@[simp]
theorem get?_kind (r : ComposerReference) : (manifestEntry r).get? "kind" =
    if r.directory = false ∧ referenceKind r ≠ .file then some (.str (referenceKind r).name)
    else none := by
  unfold manifestEntry Json.get?
  split_ifs <;> simp [List.lookup_cons]

@[simp]
theorem get?_mimeType (r : ComposerReference) : (manifestEntry r).get? "mime_type" = none := by
  unfold manifestEntry Json.get?
  split_ifs <;> simp [List.lookup_cons]

theorem AttachmentKind.ofName?_name (kind : AttachmentKind) : ofName? kind.name = some kind := by
  cases kind <;> decide

/-- An entry gives its reference back. -/
theorem message_of_manifestEntry {r : ComposerReference} (h : r.Bounded) :
    messageReference (manifestEntry r) = some r.readBack := by
  have hpath : utf16Length r.path ≤ 4096 := (utf16Length_le _).trans h.path.2.1
  have hname : utf16Length r.name ≤ 256 := (utf16Length_le _).trans h.name.2
  have hread : (((manifestEntry r).get? "path").bind Json.str?).filter (fun p =>
      p ≠ "" ∧ utf16Length p ≤ 4096 ∧ Char.ofNat 0 ∉ p.toList) = some r.path := by
    simp [Json.str?, Option.filter, h.path, hpath]
  have htype : (((manifestEntry r).get? "type").bind Json.str?).bind (fun t =>
      if t = "file" then some false else if t = "directory" then some true else none) =
        some r.directory := by
    cases hd : r.directory <;> simp [Json.str?, hd]
  have hkind : optionalField (manifestEntry r) "kind" (fun v => v.str?.bind AttachmentKind.ofName?) =
      some r.readBack.attachmentKind := by
    unfold optionalField ComposerReference.readBack
    rw [get?_kind]
    split_ifs <;> simp [Json.str?, AttachmentKind.ofName?_name]
  have hnamed : optionalField (manifestEntry r) "name"
      (fun v => v.str?.filter fun s => s ≠ "" ∧ utf16Length s ≤ 256) =
        some (if r.name ≠ lastSegment r.path then some r.name else none) := by
    unfold optionalField
    rw [get?_name]
    split_ifs <;> simp [Json.str?, Option.filter, h.name, hname]
  have hmime : optionalField (manifestEntry r) "mime_type"
      (fun v => v.str?.filter fun s => utf16Length s ≤ 128) = some none := by
    rw [optionalField, get?_mimeType]
  unfold messageReference
  simp only [Option.bind_eq_bind, isEntry_manifestEntry, hread, htype, hkind, hnamed, hmime,
    Option.bind_some, guard, if_true, Option.pure_def, ComposerReference.readBack]
  by_cases hsegment : r.name = lastSegment r.path
  · simp only [hsegment, ne_eq, not_true_eq_false, if_false, Option.getD_none]
  · simp only [hsegment, ne_eq, not_false_eq_true, if_true, Option.getD_some]

theorem messages_of_manifest : ∀ {refs : List ComposerReference}, (∀ r ∈ refs, r.Bounded) →
    (refs.map manifestEntry).mapM messageReference = some (refs.map ComposerReference.readBack)
  | [], _ => rfl
  | r :: refs, h => by
    have ih := messages_of_manifest fun r hr => h r (List.mem_cons_of_mem _ hr)
    rw [List.map_cons, List.mapM_cons, message_of_manifestEntry (h r List.mem_cons_self), ih]
    rfl

/-- A name that is of no kind under some type is of none without it. -/
theorem attachmentKind_file {name mime : String} (h : attachmentKind name mime = .file) :
    attachmentKind name "" = .file := by
  unfold attachmentKind at h ⊢
  split_ifs at h with himage hvideo
  simp only [Bool.or_eq_true, not_or] at himage hvideo
  simp [himage.2, hvideo.2]

/-- A file whose kind is left out is shown as one without a kind. -/
theorem ComposerReference.Bounded.view {r : ComposerReference} (h : r.Bounded) :
    r.readBack.view = r.view := by
  have hfile : referenceKind r = .file → LatteWork.attachmentKind r.name "" = .file := by
    intro hkind
    unfold referenceKind at hkind
    rcases h.kind with hk | hk | hk
    · exact attachmentKind_file (by simpa [hk] using hkind)
    · exact attachmentKind_file (by simpa [hk] using hkind)
    · simp [hk] at hkind
  unfold ComposerReference.view
  cases hd : r.directory with
  | true => simp [ComposerReference.readBack, hd]
  | false =>
    have hkind : referenceKind r.readBack = referenceKind r := by
      by_cases hk : referenceKind r = .file
      · have hnone : r.readBack.attachmentKind = none := by simp [ComposerReference.readBack, hk]
        rw [hk, ← hfile hk, referenceKind, hnone]
        rfl
      · have hsome : r.readBack.attachmentKind = some (referenceKind r) := by
          simp [ComposerReference.readBack, hd, hk]
        rw [referenceKind, hsome, Option.getD_some]
    rw [hkind]
    simp [ComposerReference.readBack, hd]

theorem referencePrompt_toList {text : String} {refs : List ComposerReference} (h : refs ≠ []) :
    (referencePrompt text refs).toList =
      promptText text ++ ('\n' :: TaskSource.compactMarker.toList) ++
        (Json.arr (refs.map manifestEntry)).render.toList := by
  rw [referencePrompt, if_neg h, String.toList_append, String.toList_append, String.toList_ofList,
    referenceMarker_toList]

/-- The marker that a JSON text follows is the last one for the client too. -/
theorem lastMarker_of_tidy {text front marker raw : List Char}
    (h : text = front ++ ('\n' :: marker) ++ raw) (hmarker : IsMarker marker)
    (hraw : Json.Tidy ('\n' :: raw)) : lastMarker text = some (front.length, raw) := by
  have hlast : ∀ {front' marker' rest'}, IsMarker marker' →
      text = front' ++ ('\n' :: marker') ++ rest' → front'.length ≤ front.length := by
    intro front' marker' rest' hm' h'
    have hshift : (front ++ ['\n']) ++ marker ++ raw = (front' ++ ['\n']) ++ marker' ++ rest' := by
      simpa [h] using h'
    have hle := hmarker.marker.last hm'.marker hraw hshift
    simpa using hle
  rw [lastMarker_eq, legacyReferenceMarker_toList, referenceMarker_toList]
  refine later_eq (List.cons_ne_nil _ _) (List.cons_ne_nil _ _) ?_ h ?_ ?_
  · intro f r f' r' hlong hcompact
    have hne := @markers_apart text (f ++ ['\n']) r (f' ++ ['\n']) r' (by simpa using hlong)
      (by simpa using hcompact)
    simpa using hne
  · rcases hmarker with hm | hm
    · exact .inl (by rw [hm])
    · exact .inr (by rw [hm])
  · intro other hother f r h'
    rcases hother with ho | ho
    · exact hlast (.inl rfl) (ho ▸ h')
    · exact hlast (.inr rfl) (ho ▸ h')

/-- An upload under another name, and a directory. -/
def writtenReferences : List ComposerReference :=
  [{ path := "缓存/1-\"新\"\n.png", name := "截图.png", directory := false,
      attachmentKind := some .image, mimeType := some "image/png" },
    { path := "src", name := "src", directory := true }]

end LatteWork
