import LatteWork.Agents.TraexMetadata
import LatteWork.Lib.FirstSeen

/-!
# A catalog of models

What a catalog gathers of the entries it has seen: their models, each once and with a label, whose
variant each model is, and the levels of effort of the one that is selected.
-/

namespace LatteWork

namespace TraexMetadata

open Fallible FirstSeen

variable {entries done : List Json} {entry e : Json} {selected : Option String} {c c' : Catalog}
  {id max : String}

/-- The identifier of an entry. -/
def idOf (entry : Json) : Option String := nativeId (entry.index "id")

/-- The model of the Max variant of an entry. -/
def maxOf (entry : Json) : Option String := ((variants entry)[1]?).map (·.model)

/-- The models of an entry. -/
def modelsOf (entry : Json) : List String := (idOf entry).toList ++ (maxOf entry).toList

/-- The levels of effort that an entry lists for one of its variants. -/
def levelsOf (entry : Json) (max : Bool) : List Effort :=
  (efforts entry max).1.filterMap fun effort => effort? (effort.index (efforts entry max).2)

/-- What an entry adds to the levels of effort. -/
def share (selected : Option String) (entry : Json) : List Effort :=
  let selected := selected.or (if isDefault entry then idOf entry else none)
  if selected = none then []
  else if maxOf entry = selected then levelsOf entry true
  else if idOf entry = selected then levelsOf entry false
  else []

/-- An entry has no variants, or its own model and another. -/
theorem variants_cases (entry : Json) : (variants entry = [] ∧ maxOf entry = none) ∨
    ∃ id max standard big, idOf entry = some id ∧ maxOf entry = some max ∧ max ≠ id ∧
      variants entry = [⟨id, "Standard", standard⟩, ⟨max, "Max", big⟩] := by
  have hmax : maxOf entry = ((variants entry)[1]?).map (·.model) := rfl
  unfold idOf
  rw [hmax]
  unfold variants
  split
  · rename_i max id hmax hid
    split_ifs with hno
    · exact .inl ⟨rfl, rfl⟩
    · exact .inr ⟨id, max, _, _, hid, rfl, (not_or.1 hno).2, rfl⟩
  · exact .inl ⟨rfl, rfl⟩

theorem addEfforts_eq : ∀ (listed : List Json) (key : String) (levels : List Effort),
    addEfforts levels (listed, key) =
      collect levels (listed.filterMap fun effort => effort? (effort.index key))
  | [], _, _ => rfl
  | effort :: listed, key, levels => by
    have ih := addEfforts_eq listed key
    unfold addEfforts at ih ⊢
    dsimp only at ih ⊢
    rw [List.foldl_cons, List.filterMap_cons]
    split
    · rename_i level hlevel
      rw [hlevel, ih]
      rfl
    · rename_i hlevel
      rw [hlevel, ih]

/-- What one entry adds to a catalog. -/
structure Adds (entries : List Json) (selected : Option String) (c : Catalog) (entry : Json) (id : String)
    (c' : Catalog) : Prop where
  named : idOf entry = some id
  new : id ∉ c.models
  models : c'.models = c.models ++ modelsOf entry
  apart : ∀ max, maxOf entry = some max → max ∉ c.models ∧ max ≠ id ∧
    ∀ v ∈ entries, (v.index "id").str? ≠ some max
  labels : c'.labels = match maxOf entry with
    | none => c.labels.insert id (label entry id)
    | some max => (c.labels.insert id (label entry id)).insert max (label entry id ++ " / Max")
  variants : c'.modelVariants = match maxOf entry with
    | none => c.modelVariants
    | some _ => c.modelVariants.insert id (variants entry)
  defaultModel : c'.defaultModel = if isDefault entry then some id else c.defaultModel
  effortLevels : c'.effortLevels = collect c.effortLevels (share selected entry)

theorem addEfforts_entry (levels : List Effort) (entry : Json) (max : Bool) :
    addEfforts levels (efforts entry max) = collect levels (levelsOf entry max) :=
  addEfforts_eq _ _ _

theorem share_eq (hid : idOf entry = some id) : share selected entry =
    if maxOf entry ≠ none ∧ maxOf entry = selected.or (if isDefault entry then some id else none) then
      levelsOf entry true
    else if selected.or (if isDefault entry then some id else none) = some id then levelsOf entry false
    else [] := by
  unfold share
  rw [hid]
  dsimp only
  generalize selected.or (if isDefault entry = true then some id else none) = chosen
  cases chosen with
  | none =>
    rw [if_pos rfl, if_neg fun h => h.1 h.2, if_neg nofun]
  | some s =>
    rw [if_neg (Option.some_ne_none s)]
    by_cases hmax : maxOf entry = some s
    · rw [if_pos hmax, if_pos ⟨by rw [hmax]; exact Option.some_ne_none s, hmax⟩]
    · have hno : ¬(maxOf entry ≠ none ∧ maxOf entry = some s) := fun h => hmax h.2
      rw [if_neg hmax, if_neg hno]
      by_cases hs : s = id <;> simp [hs, eq_comm]

theorem any_max (entry : Json) (chosen : Option String) :
    (((variants entry)[1]?).any fun v => some v.model = chosen) =
      decide (maxOf entry ≠ none ∧ maxOf entry = chosen) := by
  unfold maxOf
  rcases (variants entry)[1]? with _ | v <;> simp

/-- The levels of an entry come last, whichever of its variants is chosen. -/
theorem effortLevels_share (hid : idOf entry = some id) (h : (if selected.or
      (if isDefault entry then some id else none) = some id ∨
        (((variants entry)[1]?).any fun v =>
          some v.model = selected.or (if isDefault entry then some id else none)) = true then
      Except.ok { c with effortLevels := addEfforts c.effortLevels (efforts entry
        (((variants entry)[1]?).any fun v =>
          some v.model = selected.or (if isDefault entry then some id else none))) }
    else .ok c : Except String Catalog) = .ok c') :
    c' = { c with effortLevels := collect c.effortLevels (share selected entry) } := by
  rw [share_eq hid]
  rw [any_max] at h
  generalize selected.or (if isDefault entry = true then some id else none) = chosen at h ⊢
  by_cases hmax : maxOf entry ≠ none ∧ maxOf entry = chosen
  · rw [decide_eq_true hmax, if_pos (.inr rfl), addEfforts_entry] at h
    rw [if_pos hmax]
    exact (Except.ok.inj h).symm
  · rw [decide_eq_false hmax, addEfforts_entry] at h
    rw [if_neg hmax]
    by_cases hchosen : chosen = some id
    · rw [if_pos (.inl hchosen)] at h
      rw [if_pos hchosen]
      exact (Except.ok.inj h).symm
    · rw [if_neg (not_or.2 ⟨hchosen, nofun⟩)] at h
      rw [if_neg hchosen]
      exact (Except.ok.inj h).symm

theorem addEntry_adds (h : addEntry entries selected c entry = .ok c') :
    ∃ id, Adds entries selected c entry id c' := by
  unfold addEntry at h
  obtain ⟨id, hid, h⟩ := bind_eq_ok.1 h
  rw [orError_eq_ok] at hid
  obtain ⟨_, hnew, h⟩ := bind_eq_ok.1 h
  rw [bailIf_eq_ok] at hnew
  obtain ⟨mid, hmid, h⟩ := bind_eq_ok.1 h
  have hnamed : idOf entry = some id := hid
  obtain rfl := effortLevels_share hnamed h
  clear h
  refine ⟨id, ?_⟩
  rcases variants_cases entry with ⟨hvariants, hmaxOf⟩ | ⟨id', max, standard, big, hid', hmaxOf, hne, hvariants⟩
  · rw [hvariants] at hmid
    obtain rfl := Except.ok.inj hmid
    have hmodels : modelsOf entry = [id] := by
      rw [modelsOf, hnamed, hmaxOf]
      rfl
    refine ⟨hnamed, hnew, by rw [hmodels], fun m hm => ?_, by rw [hmaxOf], by rw [hmaxOf], rfl, rfl⟩
    rw [hmaxOf] at hm
    cases hm
  · obtain rfl := Option.some.inj (hnamed.symm.trans hid')
    have hoptions : (variants entry)[1]? = some ⟨max, "Max", big⟩ := by
      rw [hvariants]
      rfl
    unfold addMax at hmid
    rw [hoptions] at hmid
    obtain ⟨_, hapart, hmid⟩ := bind_eq_ok.1 hmid
    obtain rfl := Except.ok.inj hmid
    rw [bailIf_eq_ok, not_or] at hapart
    have hmodels : modelsOf entry = [id, max] := by
      rw [modelsOf, hnamed, hmaxOf]
      rfl
    refine ⟨hnamed, hnew, by rw [hmodels, List.append_assoc]; rfl, fun m hm => ?_, by rw [hmaxOf],
      by rw [hmaxOf], rfl, rfl⟩
    obtain rfl := Option.some.inj (hmaxOf.symm.trans hm)
    obtain ⟨hin, hany⟩ := hapart
    refine ⟨fun hmem => hin (List.mem_append_left _ hmem), hne, fun v hv hstr => hany ?_⟩
    rw [List.any_eq_true]
    exact ⟨v, hv, by simpa using hstr⟩

/-- What a catalog has gathered of the entries that it has seen. -/
structure Gathered (entries : List Json) (selected : Option String) (done : List Json) (c : Catalog) :
    Prop where
  models : c.models = done.flatMap modelsOf
  nodup : c.models.Nodup
  named : ∀ e ∈ done, (idOf e).isSome
  apart : ∀ e ∈ done, ∀ max, maxOf e = some max → ∀ v ∈ entries, (v.index "id").str? ≠ some max
  labels : ∀ e ∈ done, ∀ id, idOf e = some id → c.labels.find? id = some (label e id) ∧
    ∀ max, maxOf e = some max → c.labels.find? max = some (label e id ++ " / Max")
  variants : ∀ id vs, c.modelVariants.find? id = some vs ↔
    ∃ e ∈ done, idOf e = some id ∧ variants e = vs ∧ (maxOf e).isSome
  defaultModel : c.defaultModel = (done.filter isDefault).getLast?.bind idOf
  effortLevels : c.effortLevels = collect [] (done.flatMap (share selected))

theorem Gathered.mem (h : Gathered entries selected done c) {m : String} :
    m ∈ c.models ↔ ∃ e ∈ done, idOf e = some m ∨ maxOf e = some m := by
  rw [h.models, List.mem_flatMap]
  simp only [modelsOf, List.mem_append, Option.mem_toList]

theorem Gathered.add (h : Gathered entries selected done c) (hadds : Adds entries selected c entry id c') :
    Gathered entries selected (done ++ [entry]) c' where
  models := by
    rw [hadds.models, h.models, List.flatMap_append]
    simp
  nodup := by
    rw [hadds.models]
    have hnew : ∀ m ∈ modelsOf entry, m ∉ c.models := by
      intro m hm
      rcases List.mem_append.1 hm with hm | hm
      · rw [hadds.named] at hm
        obtain rfl := by simpa using hm
        exact hadds.new
      · exact (hadds.apart m (by simpa using hm)).1
    refine List.nodup_append.2 ⟨h.nodup, ?_, fun a ha b hb => ?_⟩
    · unfold modelsOf
      rw [hadds.named]
      rcases hmax : maxOf entry with _ | max
      · simp
      · have hne := (hadds.apart max hmax).2.1
        simpa using hne.symm
    · rintro rfl
      exact hnew a hb ha
  named e he := by
    rcases List.mem_append.1 he with he | he
    · exact h.named e he
    · obtain rfl := List.mem_singleton.1 he
      rw [hadds.named]
      rfl
  apart e he max hmax := by
    rcases List.mem_append.1 he with he | he
    · exact h.apart e he max hmax
    · obtain rfl := List.mem_singleton.1 he
      exact (hadds.apart max hmax).2.2
  labels e he i hi := by
    have hold {m l : String} (hm : m ∈ c.models) (hl : c.labels.find? m = some l) :
        c'.labels.find? m = some l := by
      have hid : m ≠ id := fun heq => hadds.new (heq ▸ hm)
      rw [hadds.labels]
      rcases hmax : maxOf entry with _ | max
      · rw [OrdMap.find?_insert, if_neg hid, hl]
      · have hne : m ≠ max := fun heq => (hadds.apart max hmax).1 (heq ▸ hm)
        rw [OrdMap.find?_insert, if_neg hne, OrdMap.find?_insert, if_neg hid, hl]
    rcases List.mem_append.1 he with he | he
    · obtain ⟨hlabel, hbig⟩ := h.labels e he i hi
      refine ⟨hold (h.mem.2 ⟨e, he, .inl hi⟩) hlabel, fun max hmax => ?_⟩
      exact hold (h.mem.2 ⟨e, he, .inr hmax⟩) (hbig max hmax)
    · obtain rfl := List.mem_singleton.1 he
      obtain rfl := Option.some.inj (hadds.named.symm.trans hi)
      rw [hadds.labels]
      rcases hmax : maxOf e with _ | max
      · exact ⟨by rw [OrdMap.find?_insert, if_pos rfl], fun m hm => by cases hm⟩
      · have hne := (hadds.apart max hmax).2.1
        refine ⟨?_, fun m hm => ?_⟩
        · rw [OrdMap.find?_insert, if_neg hne.symm, OrdMap.find?_insert, if_pos rfl]
        · obtain rfl := Option.some.inj hm
          rw [OrdMap.find?_insert, if_pos rfl]
  variants i vs := by
    rw [hadds.variants]
    have hlast : (∃ e ∈ done ++ [entry], idOf e = some i ∧ TraexMetadata.variants e = vs ∧ (maxOf e).isSome) ↔
        (∃ e ∈ done, idOf e = some i ∧ TraexMetadata.variants e = vs ∧ (maxOf e).isSome) ∨
          idOf entry = some i ∧ TraexMetadata.variants entry = vs ∧ (maxOf entry).isSome := by
      simp only [List.mem_append, List.mem_singleton, or_and_right, exists_or, exists_eq_left]
    rw [hlast, ← h.variants i vs, hadds.named]
    rcases hmax : maxOf entry with _ | max
    · simp
    · rw [OrdMap.find?_insert]
      split_ifs with hi
      · subst hi
        have hnone : c.modelVariants.find? i = none := by
          by_contra hsome
          obtain ⟨vs', hvs'⟩ := Option.ne_none_iff_exists'.1 hsome
          obtain ⟨e, he, hid, -⟩ := (h.variants i vs').1 hvs'
          exact hadds.new (h.mem.2 ⟨e, he, .inl hid⟩)
        rw [hnone]
        simp
      · have hne : ¬id = i := fun heq => hi heq.symm
        simp [hne]
  defaultModel := by
    rw [hadds.defaultModel, List.filter_append]
    by_cases hdefault : isDefault entry = true
    · rw [if_pos hdefault, List.filter_cons_of_pos hdefault]
      simp [hadds.named]
    · rw [if_neg hdefault, List.filter_cons_of_neg hdefault]
      simpa using h.defaultModel
  effortLevels := by
    rw [hadds.effortLevels, h.effortLevels, List.flatMap_append, collect_append]
    simp

theorem gathered_empty : Gathered entries selected [] {} where
  models := rfl
  nodup := .nil
  named _ he := absurd he List.not_mem_nil
  apart _ he := absurd he List.not_mem_nil
  labels _ he := absurd he List.not_mem_nil
  variants id vs := by
    constructor
    · intro h
      cases h
    · rintro ⟨_, he, -⟩
      exact absurd he List.not_mem_nil
  defaultModel := rfl
  effortLevels := rfl

theorem gathered_foldlM : ∀ {more done : List Json} {c c' : Catalog}, Gathered entries selected done c →
    more.foldlM (addEntry entries selected) c = .ok c' → Gathered entries selected (done ++ more) c'
  | [], done, c, c', h, hfold => by
    obtain rfl := Except.ok.inj hfold
    rwa [List.append_nil]
  | entry :: more, done, c, c', h, hfold => by
    rw [List.foldlM_cons, bind_eq_ok] at hfold
    obtain ⟨mid, hmid, hfold⟩ := hfold
    obtain ⟨id, hadds⟩ := addEntry_adds hmid
    have hrest := gathered_foldlM (h.add hadds) hfold
    rwa [List.append_assoc, List.singleton_append] at hrest

theorem catalog_gathered {r : Models} (h : catalog entries selected = .ok r) :
    ∃ c, Gathered entries selected (visible entries) c ∧ r.models = c.models ∧ r.modelLabels = c.labels ∧
      r.defaultModel = c.defaultModel ∧ r.effortLevels = c.effortLevels ∧
      (r.modelVariants.map (·.entries)).getD [] = c.modelVariants.entries := by
  unfold catalog at h
  obtain ⟨c, hfold, h⟩ := bind_eq_ok.1 h
  obtain rfl := Except.ok.inj h
  refine ⟨c, gathered_foldlM gathered_empty hfold, rfl, rfl, rfl, rfl, ?_⟩
  dsimp only
  split_ifs with hempty
  · exact (List.isEmpty_iff.1 hempty).symm
  · rfl

/-- Which model is selected makes a difference to the levels of effort only. -/
theorem addEntry_any (h : addEntry entries selected c entry = .ok c') (other : Option String)
    (levels : List Effort) : ∃ levels', addEntry entries other { c with effortLevels := levels } entry =
      .ok { c' with effortLevels := levels' } := by
  unfold addEntry at h
  obtain ⟨id, hid, h⟩ := bind_eq_ok.1 h
  obtain ⟨_, hnew, h⟩ := bind_eq_ok.1 h
  obtain ⟨mid, hmid, h⟩ := bind_eq_ok.1 h
  have hnamed : idOf entry = some id := orError_eq_ok.1 hid
  obtain rfl := effortLevels_share hnamed h
  have hmid' : addMax entries
      { models := c.models ++ [id], labels := c.labels.insert id (label entry id)
        modelVariants := c.modelVariants
        defaultModel := if isDefault entry then some id else c.defaultModel, effortLevels := levels }
      id (label entry id) (variants entry) = .ok { mid with effortLevels := levels } := by
    unfold addMax at hmid ⊢
    split at hmid
    · obtain rfl := Except.ok.inj hmid
      rfl
    · obtain ⟨_, hapart, hmid⟩ := bind_eq_ok.1 hmid
      obtain rfl := Except.ok.inj hmid
      exact bind_eq_ok.2 ⟨_, hapart, rfl⟩
  unfold addEntry
  rw [hid]
  dsimp only [bind, Except.bind] at hnew ⊢
  rw [hnew]
  dsimp only
  rw [hmid']
  dsimp only
  split_ifs <;> exact ⟨_, rfl⟩

theorem foldlM_any (other : Option String) : ∀ {more : List Json} {c c' : Catalog} (levels : List Effort),
    more.foldlM (addEntry entries selected) c = .ok c' →
    ∃ levels', more.foldlM (addEntry entries other) { c with effortLevels := levels } =
      .ok { c' with effortLevels := levels' }
  | [], c, c', levels, h => by
    obtain rfl := Except.ok.inj h
    exact ⟨levels, rfl⟩
  | entry :: more, c, c', levels, h => by
    rw [List.foldlM_cons, bind_eq_ok] at h
    obtain ⟨mid, hmid, h⟩ := h
    obtain ⟨levels₁, hfirst⟩ := addEntry_any hmid other levels
    obtain ⟨levels₂, hrest⟩ := foldlM_any other levels₁ h
    exact ⟨levels₂, by rw [List.foldlM_cons, bind_eq_ok]; exact ⟨_, hfirst, hrest⟩⟩

theorem catalog_any {r : Models} (h : catalog entries selected = .ok r) (other : Option String) :
    ∃ levels, catalog entries other = .ok { r with effortLevels := levels } := by
  unfold catalog at h ⊢
  obtain ⟨c, hfold, h⟩ := bind_eq_ok.1 h
  obtain rfl := Except.ok.inj h
  obtain ⟨levels, hother⟩ := foldlM_any other [] hfold
  exact ⟨levels, bind_eq_ok.2 ⟨_, hother, rfl⟩⟩

/-- The entry that a model is of. -/
theorem Gathered.owner (h : Gathered entries selected done c) {m : String} {e' : Json}
    (he : e ∈ done) (hm : m ∈ modelsOf e) (he' : e' ∈ done) (hm' : m ∈ modelsOf e') : e = e' := by
  obtain ⟨front, rest, rfl⟩ := List.append_of_mem he
  have hnodup := h.nodup
  rw [h.models, List.flatMap_append, List.flatMap_cons] at hnodup
  obtain ⟨-, hrest, hfront⟩ := List.nodup_append.1 hnodup
  rcases List.mem_append.1 he' with he' | he'
  · exact absurd rfl (hfront m (List.mem_flatMap.2 ⟨e', he', hm'⟩) m (List.mem_append_left _ hm))
  · rcases List.mem_cons.1 he' with rfl | he'
    · rfl
    · exact absurd rfl ((List.nodup_append.1 hrest).2.2 m hm m (List.mem_flatMap.2 ⟨e', he', hm'⟩))

theorem mem_modelsOf {m : String} : m ∈ modelsOf e ↔ idOf e = some m ∨ maxOf e = some m := by
  simp [modelsOf]

/-- The entry of a model is the first that has it, and no other adds to its levels. -/
theorem Gathered.levels (h : Gathered entries selected done c) {m : String} {g : Json → List Effort}
    (he : e ∈ done) (hm : m ∈ modelsOf e) (hg : ∀ e' ∈ done, m ∉ modelsOf e' → g e' = []) :
    done.flatMap g = g e ∧ done.find? (fun e => m ∈ modelsOf e) = some e := by
  obtain ⟨front, rest, rfl⟩ := List.append_of_mem he
  have hnodup := h.nodup
  rw [h.models, List.flatMap_append, List.flatMap_cons] at hnodup
  obtain ⟨-, hrest, hfront⟩ := List.nodup_append.1 hnodup
  have hbefore : ∀ e' ∈ front, m ∉ modelsOf e' := fun e' he' hm' =>
    hfront m (List.mem_flatMap.2 ⟨e', he', hm'⟩) m (List.mem_append_left _ hm) rfl
  have hbehind : ∀ e' ∈ rest, m ∉ modelsOf e' := fun e' he' hm' =>
    (List.nodup_append.1 hrest).2.2 m hm m (List.mem_flatMap.2 ⟨e', he', hm'⟩) rfl
  have hnone {l : List Json} (hl : ∀ e' ∈ l, g e' = []) : l.flatMap g = [] := List.flatMap_eq_nil_iff.2 hl
  constructor
  · rw [List.flatMap_append, List.flatMap_cons,
      hnone fun e' he' => hg e' (List.mem_append_left _ he') (hbefore e' he'),
      hnone fun e' he' => hg e' (List.mem_append_right _ (List.mem_cons_of_mem e he')) (hbehind e' he')]
    simp
  · refine List.find?_eq_some_iff_append.2 ⟨decide_eq_true hm, front, rest, rfl, fun e' he' => ?_⟩
    simpa using hbefore e' he'

/-- The levels that the native catalog lists for a model. -/
def levelsFor (entries : List Json) : Option String → List Effort
  | none => []
  | some m =>
    match (visible entries).find? fun e => m ∈ modelsOf e with
    | none => []
    | some e => collect [] (levelsOf e (maxOf e = some m))

theorem share_some {m : String} : share (some m) e =
    if maxOf e = some m then levelsOf e true else if idOf e = some m then levelsOf e false else [] := by
  unfold share
  rw [Option.some_or, if_neg (Option.some_ne_none m)]

/-- The levels of a model that is selected. -/
theorem Gathered.levels_some {m : String} (h : Gathered entries (some m) (visible entries) c) :
    c.effortLevels = levelsFor entries (some m) := by
  rw [h.effortLevels]
  unfold levelsFor
  dsimp only
  by_cases hm : ∃ e ∈ visible entries, m ∈ modelsOf e
  · obtain ⟨e, he, hm⟩ := hm
    obtain ⟨hall, hfind⟩ := h.levels (g := share (some m)) he hm fun e' _ hno => by
      rw [mem_modelsOf, not_or] at hno
      rw [share_some, if_neg hno.2, if_neg hno.1]
    rw [hall, hfind, share_some]
    dsimp only
    by_cases hmax : maxOf e = some m
    · rw [if_pos hmax, decide_eq_true hmax]
    · rw [if_neg hmax, decide_eq_false hmax, if_pos ((mem_modelsOf.1 hm).resolve_right hmax)]
  · have hno : ∀ e ∈ visible entries, m ∉ modelsOf e := fun e he hmem => hm ⟨e, he, hmem⟩
    have hfind : (visible entries).find? (fun e => decide (m ∈ modelsOf e)) = none := by
      rw [List.find?_eq_none]
      exact fun e he => by simpa using hno e he
    rw [hfind, List.flatMap_eq_nil_iff.2 fun e he => ?_]
    · rfl
    · have hne := hno e he
      rw [mem_modelsOf, not_or] at hne
      rw [share_some, if_neg hne.2, if_neg hne.1]

theorem share_none (he : (idOf e).isSome) :
    share none e = if isDefault e then levelsOf e false else [] := by
  obtain ⟨id, hid⟩ := Option.isSome_iff_exists.1 he
  unfold share
  rw [hid, Option.none_or]
  dsimp only
  by_cases hdefault : isDefault e = true
  · have hmax : maxOf e ≠ some id := by
      rcases variants_cases e with ⟨-, hnone⟩ | ⟨id', max, _, _, hid', hmax, hne, -⟩
      · rw [hnone]
        exact nofun
      · obtain rfl := Option.some.inj (hid.symm.trans hid')
        rw [hmax]
        exact fun h => hne (Option.some.inj h)
    rw [if_pos hdefault, if_neg (Option.some_ne_none id), if_neg hmax, if_pos rfl,
      if_pos hdefault]
  · rw [if_neg hdefault, if_pos rfl, if_neg hdefault]

/-- Without a selection the levels are of all the entries that are marked as the default. -/
theorem Gathered.levels_none (h : Gathered entries none done c) :
    c.effortLevels = collect [] ((done.filter isDefault).flatMap (levelsOf · false)) := by
  have hshare : ∀ {l : List Json}, (∀ e ∈ l, (idOf e).isSome) →
      l.flatMap (share none) = (l.filter isDefault).flatMap (levelsOf · false) := by
    intro l
    induction l with
    | nil => exact fun _ => rfl
    | cons e l ih =>
      intro hl
      rw [List.flatMap_cons, share_none (hl e List.mem_cons_self), ih fun e' he' => hl e' (List.mem_cons_of_mem e he')]
      by_cases hdefault : isDefault e = true
      · rw [if_pos hdefault, List.filter_cons_of_pos hdefault, List.flatMap_cons]
      · rw [if_neg hdefault, List.filter_cons_of_neg hdefault, List.nil_append]
  rw [h.effortLevels, hshare h.named]

/-- The variant that a selection resolves to, in what lists the variants of an entry. -/
def resolve (m : String) (listed : String × List ModelVariant) : Option ModelSelection :=
  (listed.2.find? fun v => some v.model = some m).map fun v =>
    { model := listed.1, backendVariant := if v.label = "Max" then "max" else "standard" }

theorem validateSelection_ok {m : String} {effort : Option Effort} {r : Models}
    (h : catalog entries (some m) = .ok r) (hm : m ∈ r.models)
    (heffort : ∀ level, effort = some level → level ∈ r.effortLevels) :
    validateSelection entries (some m) effort =
      .ok ((((r.modelVariants.map (·.entries)).getD []).findSome? (resolve m)).or (some ⟨m, "standard"⟩)) := by
  unfold validateSelection
  refine bind_eq_ok.2 ⟨r, h, ?_⟩
  refine bind_eq_ok.2 ⟨(), bailIf_eq_ok.2 (by simpa using hm), ?_⟩
  refine bind_eq_ok.2 ⟨(), bailIf_eq_ok.2 ?_, rfl⟩
  cases effort with
  | none => exact nofun
  | some level => simpa using heffort level rfl

theorem findSome?_unique {α β : Type*} {g : α → Option β} {l : List α} {a : α} {b : β} (ha : a ∈ l)
    (hb : g a = some b) (hall : ∀ a' ∈ l, ∀ b', g a' = some b' → b' = b) : l.findSome? g = some b := by
  rcases hfind : l.findSome? g with _ | b'
  · have := List.findSome?_eq_none_iff.1 hfind a ha
    rw [hb] at this
    cases this
  · obtain ⟨a', ha', hb'⟩ := List.exists_of_findSome?_eq_some hfind
    rw [hall a' ha' b' hb']

/-- Each model resolves to the entry that it is of. -/
theorem Gathered.resolves (h : Gathered entries selected done c) (he : e ∈ done) (hid : idOf e = some id) :
    ((c.modelVariants.entries.findSome? (resolve id)).or (some ⟨id, "standard"⟩) = some ⟨id, "standard"⟩) ∧
      (maxOf e = some max →
        (c.modelVariants.entries.findSome? (resolve max)).or (some ⟨max, "standard"⟩) = some ⟨id, "max"⟩) := by
  have hlisted {m : String} {listed : String × List ModelVariant} (hm : m ∈ modelsOf e)
      (hmem : listed ∈ c.modelVariants.entries) {s : ModelSelection} (hs : resolve m listed = some s) :
      listed = (id, TraexMetadata.variants e) ∧ (maxOf e).isSome := by
    obtain ⟨model, vs⟩ := listed
    obtain ⟨e', he', hid', rfl, hsome⟩ := (h.variants model vs).1 (OrdMap.find?_eq_some.2 hmem)
    obtain ⟨v, hv, -⟩ := Option.map_eq_some_iff.1 hs
    have hvm : v.model = m := by simpa using List.find?_some hv
    have hmem' : m ∈ modelsOf e' := by
      rcases variants_cases e' with ⟨hnone, -⟩ | ⟨i, big, _, _, hi, hbig, -, hvariants⟩
      · rw [hnone] at hv
        cases hv
      · have hin := List.mem_of_find?_eq_some hv
        rw [hvariants] at hin
        rw [mem_modelsOf, hi, hbig, ← hvm]
        rcases List.mem_cons.1 hin with rfl | hin
        · exact .inl rfl
        · obtain rfl := List.mem_singleton.1 hin
          exact .inr rfl
    obtain rfl := h.owner he hm he' hmem'
    rw [hid] at hid'
    exact ⟨by rw [Option.some.inj hid'], hsome⟩
  rcases variants_cases e with ⟨-, hnone⟩ | ⟨id', big, w₁, w₂, hid', hbig, hne, hvariants⟩
  · refine ⟨?_, fun hmax => by rw [hnone] at hmax; cases hmax⟩
    have hfind : c.modelVariants.entries.findSome? (resolve id) = none := by
      refine List.findSome?_eq_none_iff.2 fun listed hmem => ?_
      by_contra hsome
      obtain ⟨s, hs⟩ := Option.ne_none_iff_exists'.1 hsome
      have := (hlisted (mem_modelsOf.2 (.inl hid)) hmem hs).2
      rw [hnone] at this
      cases this
    rw [hfind]
    rfl
  · obtain rfl := Option.some.inj (hid.symm.trans hid')
    have hmem : (id, TraexMetadata.variants e) ∈ c.modelVariants.entries :=
      OrdMap.find?_eq_some.1 ((h.variants id _).2 ⟨e, he, hid, rfl, by rw [hbig]; rfl⟩)
    have hstandard : resolve id (id, TraexMetadata.variants e) = some ⟨id, "standard"⟩ := by
      rw [resolve, hvariants]
      simp
    constructor
    · rw [findSome?_unique hmem hstandard fun listed hl s hs => ?_]
      · rfl
      · rw [(hlisted (mem_modelsOf.2 (.inl hid)) hl hs).1, hstandard] at hs
        exact (Option.some.inj hs).symm
    · intro hmax
      obtain rfl := Option.some.inj (hbig.symm.trans hmax)
      have hbigger : resolve big (id, TraexMetadata.variants e) = some ⟨id, "max"⟩ := by
        rw [resolve, hvariants]
        simp [hne.symm]
      rw [findSome?_unique hmem hbigger fun listed hl s hs => ?_]
      · rfl
      · rw [(hlisted (mem_modelsOf.2 (.inr hbig)) hl hs).1, hbigger] at hs
        exact (Option.some.inj hs).symm

/-- A catalog is as the native one says. -/
structure Consistent (entries : List Json) (selected : Option String) (r : Models) : Prop where
  models : r.models = (visible entries).flatMap modelsOf
  named : ∀ e ∈ visible entries, (idOf e).isSome
  nodup : r.models.Nodup
  labels : ∀ m ∈ r.models, (r.modelLabels.find? m).isSome
  resolves : ∀ e ∈ visible entries, ∀ id, idOf e = some id →
    (∃ r', catalog entries (some id) = .ok r' ∧ ∀ effort, (∀ level, effort = some level →
      level ∈ r'.effortLevels) → validateSelection entries (some id) effort = .ok (some ⟨id, "standard"⟩)) ∧
    ∀ max, maxOf e = some max →
      ∃ r', catalog entries (some max) = .ok r' ∧ ∀ effort, (∀ level, effort = some level →
        level ∈ r'.effortLevels) → validateSelection entries (some max) effort = .ok (some ⟨id, "max"⟩)
  effortLevels : r.effortLevels = levelsFor entries (selected.or r.defaultModel)

/-- The levels of all the entries that are marked as the default are those of the last one. -/
def DefaultsAgree (entries : List Json) : Prop :=
  ∀ front last, (visible entries).filter isDefault = front ++ [last] →
    collect [] (front.flatMap (levelsOf · false)) <+: collect [] (levelsOf last false)

theorem levels_default {r : Models} (hc : Gathered entries none (visible entries) c)
    (hdefault : r.defaultModel = c.defaultModel) (hlevels : r.effortLevels = c.effortLevels) :
    r.effortLevels = levelsFor entries r.defaultModel ↔ DefaultsAgree entries := by
  rw [hlevels, hdefault, hc.levels_none, hc.defaultModel]
  rcases List.eq_nil_or_concat ((visible entries).filter isDefault) with hnone | ⟨front, last, hlast⟩
  · rw [hnone]
    refine ⟨fun _ front last h => ?_, fun _ => rfl⟩
    rw [hnone] at h
    simp at h
  · rw [List.concat_eq_append] at hlast
    rw [hlast]
    have hmem : last ∈ visible entries := by
      refine List.mem_of_mem_filter (p := isDefault) ?_
      rw [hlast]
      simp
    obtain ⟨id, hid⟩ := Option.isSome_iff_exists.1 (hc.named last hmem)
    have hfor : levelsFor entries (some id) = collect [] (levelsOf last false) := by
      have hfind := (hc.levels (g := fun _ => []) hmem (mem_modelsOf.2 (.inl hid)) fun _ _ _ => rfl).2
      have hmax : maxOf last ≠ some id := by
        rcases variants_cases last with ⟨-, hnone⟩ | ⟨id', max, _, _, hid', hmax, hne, -⟩
        · rw [hnone]
          exact nofun
        · obtain rfl := Option.some.inj (hid.symm.trans hid')
          rw [hmax]
          exact fun h => hne (Option.some.inj h)
      unfold levelsFor
      dsimp only
      rw [hfind]
      dsimp only
      rw [decide_eq_false hmax]
    have hget : (front ++ [last]).getLast?.bind idOf = some id := by simp [hid]
    rw [hget, hfor, List.flatMap_append, List.flatMap_singleton, collect_eq_iff]
    refine ⟨fun h front' last' heq => ?_, fun h => h front last hlast⟩
    obtain ⟨rfl, hl⟩ := List.append_inj' (hlast.symm.trans heq) rfl
    obtain rfl := List.singleton_inj.1 hl
    exact h

/-- A catalog is as the native one says exactly when a model is selected or the entries that are marked
as the default agree. -/
theorem catalog_consistent_iff {r : Models} (h : catalog entries selected = .ok r) :
    Consistent entries selected r ↔ (selected = none → DefaultsAgree entries) := by
  obtain ⟨c, hc, hmodels, hlabels, hdefault, hlevels, hvariants⟩ := catalog_gathered h
  constructor
  · intro hconsistent hnone
    subst hnone
    have heffort := hconsistent.effortLevels
    rw [Option.none_or] at heffort
    exact (levels_default hc hdefault hlevels).1 heffort
  · intro hagree
    refine ⟨hmodels.trans hc.models, hc.named, hmodels ▸ hc.nodup, fun m hm => ?_, fun e he id hid => ?_, ?_⟩
    · rw [hmodels, hc.mem] at hm
      obtain ⟨e, he, hm⟩ := hm
      obtain ⟨id, hid⟩ := Option.isSome_iff_exists.1 (hc.named e he)
      obtain ⟨hlabel, hbig⟩ := hc.labels e he id hid
      rw [hlabels]
      rcases hm with hm | hm
      · obtain rfl := Option.some.inj (hid.symm.trans hm)
        rw [hlabel]
        rfl
      · rw [hbig m hm]
        rfl
    · have hrun {m : String} (hm : m ∈ r.models) {s : ModelSelection}
          (hs : (c.modelVariants.entries.findSome? (resolve m)).or (some ⟨m, "standard"⟩) = some s) :
          ∃ r', catalog entries (some m) = .ok r' ∧ ∀ effort, (∀ level, effort = some level →
            level ∈ r'.effortLevels) → validateSelection entries (some m) effort = .ok (some s) := by
        obtain ⟨levels, hother⟩ := catalog_any h (some m)
        refine ⟨_, hother, fun effort heffort => ?_⟩
        rw [validateSelection_ok hother hm heffort]
        dsimp only
        rw [hvariants, hs]
      constructor
      · exact hrun (hmodels ▸ hc.mem.2 ⟨e, he, .inl hid⟩) (@Gathered.resolves _ _ _ _ _ _ id hc he hid).1
      · exact fun max hmax => hrun (hmodels ▸ hc.mem.2 ⟨e, he, .inr hmax⟩) ((hc.resolves he hid).2 hmax)
    · cases selected with
      | none =>
        rw [Option.none_or]
        exact (levels_default hc hdefault hlevels).2 (hagree rfl)
      | some m =>
        rw [Option.some_or, hlevels]
        exact hc.levels_some

/-- An entry of a catalog that is marked as the default. -/
def defaultEntry (id level : String) : Json :=
  .obj [("id", .str id), ("isDefault", .bool true),
    ("supportedReasoningEfforts", .arr [.obj [("reasoningEffort", .str level)]])]

theorem catalog_consistent_iff_one : ∃ r, catalog [defaultEntry "seed" "low"] none = .ok r ∧
    Consistent [defaultEntry "seed" "low"] none r := by
  refine ⟨_, rfl, (catalog_consistent_iff rfl).2 fun _ front last hfront => ?_⟩
  have hone : (visible [defaultEntry "seed" "low"]).filter isDefault = [] ++ [defaultEntry "seed" "low"] := rfl
  obtain ⟨rfl, -⟩ := List.append_inj' (hone.symm.trans hfront) rfl
  exact List.nil_prefix

/-- Of two entries that are marked as the default, the reported one is the second, and the levels are of
both. -/
theorem not_consistent_defaults : ∃ r,
    catalog [defaultEntry "seed" "low", defaultEntry "other" "high"] none = .ok r ∧
      ¬Consistent [defaultEntry "seed" "low", defaultEntry "other" "high"] none r := by
  refine ⟨_, rfl, fun h => ?_⟩
  have hlevels := h.effortLevels
  revert hlevels
  decide +kernel

end TraexMetadata

end LatteWork
