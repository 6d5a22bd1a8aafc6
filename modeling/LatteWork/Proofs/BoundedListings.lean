import LatteWork.Git.Listing
import LatteWork.Lib.FirstSeen
import LatteWork.Wire.JsonSize

/-!
# What a cut listing shows

The changes in front of the cut are listed as they are without it. One more is listed wrong where
the cut falls between the two paths of a rename, or into a path that is read to the end of the text.
-/

namespace LatteWork

namespace Git

/-- A text that a field may be: not empty, and without a NUL. -/
structure Field (text : List Char) : Prop where
  nonempty : text ≠ []
  clean : nul ∉ text

/-- A change as `status --porcelain=v1 -z` reports it. -/
structure StatusRecord where
  x : Char
  y : Char
  path : List Char
  previous : Option (List Char)
  ascii : ∀ flag ∈ [x, y], flag.toNat < 128 ∧ flag ≠ nul
  pathField : Field path
  previousField : ∀ p ∈ previous, Field p
  both : previous.isSome = (moved x || moved y)

namespace StatusRecord

def first (r : StatusRecord) : List Char := r.x :: r.y :: ' ' :: r.path

def fields (r : StatusRecord) : List (List Char) := r.first :: r.previous.toList

/-- The entries of a change whose second path reads so. -/
def entriesWith (front : List Char) (previous : Option (List Char)) (r : StatusRecord) :
    List GitChange :=
  match stripPrefix front r.path with
  | none | some [] => []
  | some path =>
    ((sections [r.x, r.y]).filter fun s => s.1 ≠ ' ' ∧ s.1 ≠ '!').map fun s =>
      { path := String.ofList path
        previousPath :=
          if moved s.1 then (previous.bind (stripPrefix front)).map String.ofList else none
        changeSection := s.2, status := String.singleton s.1 }

/-- A change in the project, once for each section it is in. -/
def entries (front : List Char) (r : StatusRecord) : List GitChange :=
  r.entriesWith front r.previous

end StatusRecord

/-- What Git writes for a list of changes. -/
def output (records : List StatusRecord) : List Char :=
  Fields.join nul (records.flatMap StatusRecord.fields)

theorem nul_size : nul.utf8Size = 1 := by decide

section Reading

variable {front : List Char}

theorem asBytes_ascii {c : Char} (h : c.toNat < 128) (s : List Char) :
    asBytes (c :: s) = UInt8.ofNat c.toNat :: asBytes s := by
  rw [asBytes, List.flatMap_cons, encode_ascii h]
  rfl

theorem ofByte_ascii {c : Char} (h : c.toNat < 128) :
    Char.ofNat (UInt8.ofNat c.toNat).toNat = c := by
  rw [UInt8.toNat_ofNat', Nat.mod_eq_of_lt (by omega), Char.ofNat_toNat]

theorem asBytes_first (r : StatusRecord) :
    asBytes r.first =
      UInt8.ofNat r.x.toNat :: UInt8.ofNat r.y.toNat :: 32 :: asBytes r.path := by
  rw [StatusRecord.first, asBytes_ascii (r.ascii r.x (by simp)).1,
    asBytes_ascii (r.ascii r.y (by simp)).1, asBytes_ascii (by decide)]
  rfl

theorem flags_first (r : StatusRecord) : flags r.first = [r.x, r.y] := by
  rw [flags, asBytes_first, List.take_succ_cons, List.take_succ_cons, List.take_zero,
    List.map_cons, List.map_cons, List.map_nil, ofByte_ascii (r.ascii r.x (by simp)).1,
    ofByte_ascii (r.ascii r.y (by simp)).1]

theorem drop_first (r : StatusRecord) : dropBytes 3 r.first = r.path := by
  have hx := Json.utf8Size_of_ascii (r.ascii r.x (by simp)).1
  have hy := Json.utf8Size_of_ascii (r.ascii r.y (by simp)).1
  have hspace : ' '.utf8Size = 1 := rfl
  obtain ⟨c, rest, hpath⟩ := List.exists_cons_of_ne_nil r.pathField.nonempty
  simp [StatusRecord.first, hpath, dropBytes, hx, hy, hspace]

theorem first_read (r : StatusRecord) :
    ¬((asBytes r.first).length < 4 ∨ (asBytes r.first)[2]? ≠ some 32) := by
  obtain ⟨c, rest, hpath⟩ := List.exists_cons_of_ne_nil r.pathField.nonempty
  have hlen : 0 < (asBytes r.path).length := by
    rw [hpath, asBytes, List.flatMap_cons, List.length_append, String.length_utf8EncodeChar]
    have := c.utf8Size_pos
    omega
  simp only [asBytes_first, List.length_cons, List.getElem?_cons_succ, List.getElem?_cons_zero,
    ne_eq, not_true_eq_false, or_false]
  omega

/-- The sections that are pushed, up to the limit. -/
theorem pushSections_eq (path : List Char) (previousPath : Option (List Char)) :
    ∀ (letters : List (Char × ChangeSection)) (entries : List GitChange),
      entries.length ≤ 1000 →
      let new := (letters.filter fun s => s.1 ≠ ' ' ∧ s.1 ≠ '!').map fun s =>
        { path := String.ofList path
          previousPath := if moved s.1 then previousPath.map String.ofList else none
          changeSection := s.2, status := String.singleton s.1 : GitChange }
      pushSections path previousPath letters entries =
        ((entries ++ new).take 1000, decide (1000 < (entries ++ new).length))
  | [], entries, h => by
    simp only [pushSections, List.filter_nil, List.map_nil, List.append_nil,
      List.take_of_length_le h]
    simpa using h
  | (flag, changeSection) :: rest, entries, h => by
    intro new
    rw [pushSections]
    split
    · rename_i hskip
      have hnew : ¬(flag ≠ ' ' ∧ flag ≠ '!') := by tauto
      rw [pushSections_eq path previousPath rest entries h]
      simp [new, hnew]
    · rename_i hshow
      have hnew : flag ≠ ' ' ∧ flag ≠ '!' := by tauto
      split
      · rename_i hfull
        have hlen : entries.length = 1000 := by omega
        simp [new, hnew, hlen]
      · rw [pushSections_eq path previousPath rest _ (by simp; omega)]
        simp [new, List.filter_cons, hnew]

theorem entriesWith_eq (front : List Char) (previous : Option (List Char)) (r : StatusRecord)
    {path : List Char} (h : stripPrefix front r.path = some path) (hne : path ≠ []) :
    r.entriesWith front previous =
      ((sections [r.x, r.y]).filter fun s => s.1 ≠ ' ' ∧ s.1 ≠ '!').map fun s =>
        { path := String.ofList path
          previousPath :=
            if moved s.1 then (previous.bind (stripPrefix front)).map String.ofList else none
          changeSection := s.2, status := String.singleton s.1 } := by
  unfold StatusRecord.entriesWith
  rw [h]
  cases path with
  | nil => exact absurd rfl hne
  | cons c rest => rfl

theorem addChange_first (r : StatusRecord) (previous : Option (List Char)) (more : Bool)
    {entries all : List GitChange} (h : entries.length < 1000)
    (hall : all = entries ++ r.entriesWith front previous) :
    addChange front r.first previous more entries =
      if all.length < 1000 then .ok all
      else .error (all.take 1000, decide (1000 < all.length) || more) := by
  rw [addChange, drop_first, flags_first]
  rcases hstrip : stripPrefix front r.path with _ | path
  · have hsame : all = entries := by simp [hall, StatusRecord.entriesWith, hstrip]
    rw [hsame, if_pos h]
  rcases path with _ | ⟨c, rest⟩
  · have hsame : all = entries := by simp [hall, StatusRecord.entriesWith, hstrip]
    rw [hsame, if_pos h]
  rw [entriesWith_eq front previous r hstrip (List.cons_ne_nil c rest)] at hall
  dsimp only
  rw [pushSections_eq _ _ _ _ h.le, ← hall]
  dsimp only
  by_cases hfull : all.length < 1000
  · rw [if_pos hfull, if_neg (by rw [List.length_take]; omega), List.take_of_length_le hfull.le]
  · rw [if_neg hfull, if_pos (by rw [List.length_take]; omega)]

/-- One change is read with all its fields. -/
theorem changesLoop_record (r : StatusRecord) (rest : List (List Char))
    {entries all : List GitChange} (h : entries.length < 1000)
    (hall : all = entries ++ r.entries front) :
    changesLoop front (r.fields ++ rest) entries =
      if all.length < 1000 then changesLoop front rest all
      else (all.take 1000, decide (1000 < all.length) || rest.any (· ≠ [])) := by
  have hfirst : r.first ≠ [] := List.cons_ne_nil _ _
  have hmoved : (flags r.first).any moved = r.previous.isSome := by
    rw [flags_first, r.both]
    simp
  rw [StatusRecord.entries] at hall
  rw [StatusRecord.fields, List.cons_append, changesLoop.eq_def]
  dsimp only
  rw [if_neg hfirst, if_neg (first_read r), hmoved]
  rcases hprevious : r.previous with _ | previous
  all_goals rw [hprevious] at hall
  · rw [if_neg (by simp), Option.toList_none, List.nil_append, addChange_first r none _ h hall]
    split_ifs <;> rfl
  · rw [if_pos (by simp), Option.toList_some, List.cons_append, List.nil_append]
    dsimp only
    rw [addChange_first r (some previous) _ h hall]
    split_ifs <;> rfl

/-- Changes are read up to the limit, and where one is left out that is told. -/
theorem changesLoop_records : ∀ (records : List StatusRecord) (tail : List (List Char))
    {entries all : List GitChange}, entries.length < 1000 →
    all = entries ++ records.flatMap (·.entries front) →
    ∃ told, (1000 < all.length → told = true) ∧
      changesLoop front (records.flatMap (·.fields) ++ tail) entries =
        if all.length < 1000 then changesLoop front tail all else (all.take 1000, told)
  | [], tail, entries, all, h, hall => by
    obtain rfl : all = entries := by simpa using hall
    exact ⟨true, fun _ => rfl, by rw [if_pos h]; rfl⟩
  | r :: records, tail, entries, all, h, hall => by
    rw [List.flatMap_cons, ← List.append_assoc] at hall
    have hread := changesLoop_record r (records.flatMap (·.fields) ++ tail) h
      (rfl : entries ++ r.entries front = _)
    rw [List.flatMap_cons, List.append_assoc, hread]
    by_cases hroom : (entries ++ r.entries front).length < 1000
    · rw [if_pos hroom]
      exact changesLoop_records records tail hroom hall
    · -- the limit is reached in this change
      have hfull : ¬all.length < 1000 := by
        rw [hall, List.length_append]
        omega
      rw [if_neg hroom]
      simp only [if_neg hfull]
      refine ⟨_, fun hmore => ?_, Prod.ext ?_ rfl⟩
      · rw [Bool.or_eq_true, decide_eq_true_eq]
        by_cases hhere : 1000 < (entries ++ r.entries front).length
        · exact .inl hhere
        · right
          obtain ⟨next, rest, rfl⟩ : ∃ next rest, records = next :: rest := by
            rcases records with _ | ⟨next, rest⟩
            · rw [hall] at hmore
              simp only [List.flatMap_nil, List.append_nil] at hmore
              omega
            · exact ⟨next, rest, rfl⟩
          rw [List.any_eq_true]
          exact ⟨next.first, by simp [StatusRecord.fields], by simp [StatusRecord.first]⟩
      · rw [hall]
        exact (List.take_append_of_le_length (by omega)).symm

end Reading

section Cut

/-- The bytes of a change with all its fields. -/
def StatusRecord.size (r : StatusRecord) : ℕ := Fields.weight Char.utf8Size (Fields.join nul r.fields)

/-- The changes in front of a cut, and the one whose two paths the cut falls between. -/
def cutChanges : ℕ → List StatusRecord → List StatusRecord × Option StatusRecord
  | _, [] => ([], none)
  | n, r :: records =>
    if r.size ≤ n then
      (r :: (cutChanges (n - r.size) records).1, (cutChanges (n - r.size) records).2)
    else if Fields.weight Char.utf8Size (r.first ++ [nul]) ≤ n then ([], some r) else ([], none)

theorem cutChanges_front : ∀ (n : ℕ) (records : List StatusRecord),
    (cutChanges n records).1 ++ (cutChanges n records).2.toList <+: records
  | _, [] => List.prefix_rfl
  | n, r :: records => by
    rw [cutChanges]
    split_ifs
    · exact List.prefix_cons_inj r |>.2 (cutChanges_front _ records)
    · exact ⟨records, rfl⟩
    · exact List.nil_prefix

theorem whole_changes : ∀ (n : ℕ) (records : List StatusRecord),
    Fields.whole Char.utf8Size nul n (records.flatMap (·.fields)) =
      (cutChanges n records).1.flatMap (·.fields) ++ (cutChanges n records).2.toList.map (·.first)
  | _, [] => rfl
  | n, r :: records => by
    rw [List.flatMap_cons, cutChanges]
    split_ifs with hsize hfirst
    · rw [Fields.whole_append_of_le _ hsize]
      change _ ++ Fields.whole _ _ (n - r.size) _ = _
      rw [whole_changes _ records, List.flatMap_cons, List.append_assoc]
    · -- the first path is whole, the second is not
      obtain ⟨previous, hprevious⟩ : ∃ previous, r.previous = some previous := by
        refine Option.isSome_iff_exists.1 ?_
        by_contra hnone
        rw [Option.not_isSome_iff_eq_none] at hnone
        exact hsize (by simpa [StatusRecord.size, StatusRecord.fields, hnone, Fields.join] using hfirst)
      have htwo : r.size = Fields.weight Char.utf8Size (r.first ++ [nul]) +
          Fields.weight Char.utf8Size (previous ++ [nul]) := by
        simp only [StatusRecord.size, StatusRecord.fields, hprevious, Option.toList_some, Fields.join,
          List.flatMap_cons, List.flatMap_nil, List.append_nil, Fields.weight_append]
      rw [StatusRecord.fields, hprevious, List.cons_append, Fields.whole, if_pos hfirst]
      simp only [Option.toList_some, List.cons_append]
      rw [Fields.whole, if_neg (by omega)]
      rfl
    · rw [StatusRecord.fields, List.cons_append, Fields.whole, if_neg hfirst]
      rfl

theorem field_clean {records : List StatusRecord} :
    ∀ f ∈ records.flatMap (·.fields), nul ∉ f := by
  intro f hf
  obtain ⟨r, -, hf⟩ := List.mem_flatMap.1 hf
  rcases List.mem_cons.1 hf with rfl | hf
  · have hx := (r.ascii r.x (by simp)).2
    have hy := (r.ascii r.y (by simp)).2
    simp only [StatusRecord.first, List.mem_cons, not_or]
    exact ⟨Ne.symm hx, Ne.symm hy, by decide, r.pathField.clean⟩
  · exact (r.previousField f (Option.mem_toList.1 hf)).clean

theorem projectPrefix_line (front : List Char) : projectPrefix (front ++ ['\n']) = front := by
  simp [projectPrefix]

/-- A cut output is read as its whole fields. -/
theorem changes_cut (front : List Char) (n : ℕ) (records : List StatusRecord) :
    changes (front ++ ['\n']) (read n (output records)) =
      let out := changesLoop front ((cutChanges n records).1.flatMap (·.fields) ++
        ((cutChanges n records).2.toList.map (·.first) ++ [[]])) []
      (out.1, decide (n < Fields.weight Char.utf8Size (output records)) || out.2) := by
  have hclean := @field_clean records
  have htorn : nul ∉ Fields.torn Char.utf8Size replacement nul n (records.flatMap (·.fields)) :=
    Fields.not_mem_torn (by decide) hclean
  have hwhole : ∀ f ∈ Fields.whole Char.utf8Size nul n (records.flatMap (·.fields)), nul ∉ f :=
    fun f hf => hclean f (Fields.mem_whole hf)
  have hsplit := Fields.splitOn_join (q := []) List.not_mem_nil hwhole
  rw [List.append_nil, whole_changes, List.append_assoc] at hsplit
  have hread : (read n (output records)).1 = Fields.join nul (Fields.whole Char.utf8Size nul n
      (records.flatMap (·.fields))) ++ Fields.torn Char.utf8Size replacement nul n
      (records.flatMap (·.fields)) := Fields.cut_join nul_size n _
  unfold changes
  rw [hread, Fields.front_join htorn, projectPrefix_line, whole_changes]
  dsimp only
  rw [hsplit]
  rfl

/-- What a cut leaves of the changes' entries. -/
def cutEntries (front : List Char) (n : ℕ) (records : List StatusRecord) : List GitChange :=
  (cutChanges n records).1.flatMap (·.entries front) ++
    (cutChanges n records).2.toList.flatMap (·.entriesWith front (some []))

theorem cutChanges_moved {r : StatusRecord} : ∀ {n : ℕ} {records : List StatusRecord},
    (cutChanges n records).2 = some r → r.previous.isSome
  | _, [], h => by simp [cutChanges] at h
  | n, r' :: records, h => by
    rw [cutChanges] at h
    split_ifs at h with hsize hfirst
    · exact cutChanges_moved h
    · obtain rfl := Option.some.inj h
      by_contra hnone
      rw [Option.not_isSome_iff_eq_none] at hnone
      exact hsize (by simpa [StatusRecord.size, StatusRecord.fields, hnone, Fields.join] using hfirst)

theorem changesLoop_torn (front : List Char) (r : StatusRecord) (hr : r.previous.isSome)
    {entries : List GitChange} (h : entries.length < 1000) :
    (changesLoop front [r.first, []] entries).1 =
      (entries ++ r.entriesWith front (some [])).take 1000 := by
  have hfirst : r.first ≠ [] := List.cons_ne_nil _ _
  have hmoved : (flags r.first).any moved = true := by
    rw [flags_first, ← hr, r.both]
    simp
  rw [changesLoop.eq_def]
  dsimp only
  rw [if_neg hfirst, if_neg (first_read r), if_pos hmoved, addChange_first r (some []) _ h rfl]
  split_ifs with hroom
  · simp only [changesLoop]
    exact (List.take_of_length_le hroom.le).symm
  · rfl

theorem changes_entries (front : List Char) (n : ℕ) (records : List StatusRecord) :
    (changes (front ++ ['\n']) (read n (output records))).1 =
      (cutEntries front n records).take 1000 := by
  rw [changes_cut]
  dsimp only
  obtain ⟨told, -, hloop⟩ := @changesLoop_records front (cutChanges n records).1
    ((cutChanges n records).2.toList.map (·.first) ++ [[]]) [] _ (by simp) rfl
  rw [hloop, cutEntries, List.nil_append]
  split_ifs with hroom
  · cases htorn : (cutChanges n records).2 with
    | none => simpa [changesLoop] using hroom.le
    | some r =>
      rw [Option.toList_some, List.map_singleton, List.flatMap_singleton]
      exact changesLoop_torn front r (cutChanges_moved htorn) hroom
  · exact (List.take_append_of_le_length (by omega)).symm

/-- Without a cut every change is whole. -/
theorem cutChanges_all : ∀ {n : ℕ} {records : List StatusRecord},
    Fields.weight Char.utf8Size (output records) ≤ n → cutChanges n records = (records, none)
  | _, [], _ => rfl
  | n, r :: records, h => by
    have hsum : Fields.weight Char.utf8Size (output (r :: records)) =
        r.size + Fields.weight Char.utf8Size (output records) := by
      rw [output, List.flatMap_cons, Fields.join_append, Fields.weight_append]
      rfl
    rw [cutChanges, if_pos (by omega), cutChanges_all (by omega)]

end Cut

section Kept

variable {front : List Char} {n : ℕ} {records : List StatusRecord}

/-- What is shown of a list of changes whose output is cut at `n`: what is listed without a cut, as
far as it goes; where a change in the project is left out, that is told; and none is left out
without a cut and a limit. -/
structure ChangesKept (front : List Char) (n : ℕ) (records : List StatusRecord) : Prop where
  shown : (changes (front ++ ['\n']) (read n (output records))).1 <+:
    (changes (front ++ ['\n']) (output records, false)).1
  told : (∃ r ∈ records, ∃ e ∈ r.entries front,
      e ∉ (changes (front ++ ['\n']) (read n (output records))).1) →
    (changes (front ++ ['\n']) (read n (output records))).2 = true
  complete : Fields.weight Char.utf8Size (output records) ≤ n →
    (records.flatMap (·.entries front)).length ≤ 1000 →
    (changes (front ++ ['\n']) (read n (output records))).1 = records.flatMap (·.entries front)

/-- Of a change whose two paths the cut falls between, no entry that has a previous path is within
the limit. -/
def SparesRename (front : List Char) (n : ℕ) (records : List StatusRecord) : Prop :=
  ∀ r ∈ (cutChanges n records).2,
    ∀ e ∈ (r.entries front).take
        (1000 - ((cutChanges n records).1.flatMap (·.entries front)).length),
      e.previousPath = none

theorem read_all (h : Fields.weight Char.utf8Size (output records) ≤ n) :
    read n (output records) = (output records, false) := by
  rw [read, Fields.cut_of_le h]
  simpa using h

theorem changes_all (front : List Char) (records : List StatusRecord) :
    (changes (front ++ ['\n']) (output records, false)).1 =
      (records.flatMap (·.entries front)).take 1000 := by
  have hentries := changes_entries front (Fields.weight Char.utf8Size (output records)) records
  rw [read_all le_rfl, cutEntries, cutChanges_all le_rfl] at hentries
  simpa using hentries

theorem changes_told (h : ∃ r ∈ records, ∃ e ∈ r.entries front,
    e ∉ (changes (front ++ ['\n']) (read n (output records))).1) :
    (changes (front ++ ['\n']) (read n (output records))).2 = true := by
  rw [changes_cut]
  dsimp only
  rw [Bool.or_eq_true, decide_eq_true_eq]
  by_cases hcut : n < Fields.weight Char.utf8Size (output records)
  · exact .inl hcut
  · right
    have hall := Nat.not_lt.1 hcut
    obtain ⟨r, hr, e, he, hmissing⟩ := h
    rw [read_all hall, changes_all] at hmissing
    have hmem : e ∈ records.flatMap (·.entries front) := List.mem_flatMap.2 ⟨r, hr, he⟩
    obtain ⟨told, htold, hloop⟩ := @changesLoop_records front records [[]] [] _
      (by simp) rfl
    rw [List.nil_append] at htold hloop
    have hmore : 1000 < (records.flatMap (·.entries front)).length := by
      by_contra hfew
      rw [List.take_of_length_le (by omega)] at hmissing
      exact hmissing hmem
    rw [cutChanges_all hall]
    simp only [Option.toList_none, List.map_nil, List.nil_append]
    rw [hloop, if_neg (by omega)]
    exact htold hmore

/-- A second path that is not read is none just where the change has none in the project. -/
theorem torn_entries (r : StatusRecord) (hr : r.previous.isSome) (front : List Char) (k : ℕ) :
    (r.entriesWith front (some [])).take k = (r.entries front).take k ↔
      ∀ e ∈ (r.entries front).take k, e.previousPath = none := by
  obtain ⟨previous, hprevious⟩ := Option.isSome_iff_exists.1 hr
  have hne := (r.previousField previous hprevious).nonempty
  unfold StatusRecord.entries StatusRecord.entriesWith
  rw [hprevious]
  rcases stripPrefix front r.path with _ | path
  · simp
  rcases path with _ | ⟨c, rest⟩
  · simp
  dsimp only
  rw [← List.map_take, ← List.map_take, List.map_inj_left]
  simp only [List.mem_map, forall_exists_index, and_imp, forall_apply_eq_imp_iff₂]
  refine forall_congr' fun s => imp_congr_right fun _ => ?_
  by_cases hmoved : moved s.1
  · simp only [hmoved, if_true, GitChange.mk.injEq, true_and, and_true, Option.bind_some]
    by_cases hfront : front = []
    · subst hfront
      simpa [stripPrefix] using hne
    · have hnone : stripPrefix front [] = none := by
        rw [stripPrefix, if_neg (by simpa using hfront)]
      rw [hnone, Option.map_none]
      exact ⟨Eq.symm, Eq.symm⟩
  · simp [hmoved]

theorem torn_length (r : StatusRecord) (front : List Char) (previous : Option (List Char)) :
    (r.entriesWith front previous).length = (r.entries front).length := by
  unfold StatusRecord.entries StatusRecord.entriesWith
  rcases stripPrefix front r.path with _ | path
  · rfl
  rcases path with _ | ⟨c, rest⟩
  · rfl
  simp

theorem take_front_iff {α : Type} {t e more : List α} (h : t.length = e.length) (k : ℕ) :
    t.take k <+: (e ++ more).take k ↔ t.take k = e.take k := by
  constructor
  · intro hfront
    have htake := List.prefix_iff_eq_take.1 hfront
    rw [htake, List.take_take, List.length_take, h]
    have hle : min (min k e.length) k ≤ e.length := by omega
    rw [List.take_append_of_le_length hle]
    rcases Nat.le_total k e.length with hk | hk
    · rw [Nat.min_eq_left hk, Nat.min_self]
    · rw [Nat.min_eq_right hk, List.take_of_length_le (by omega : e.length ≤ k),
        List.take_of_length_le (by omega)]
  · intro heq
    rw [heq]
    exact (List.prefix_append e more).take k

/-- A cut listing of the working tree shows what is there just where the cut spares the paths of a
rename. -/
theorem changesKept_iff : ChangesKept front n records ↔ SparesRename front n records := by
  have hshown : (changes (front ++ ['\n']) (read n (output records))).1 <+:
      (changes (front ++ ['\n']) (output records, false)).1 ↔ SparesRename front n records := by
    rw [changes_entries, changes_all, cutEntries, SparesRename]
    obtain ⟨rest, hrest⟩ := cutChanges_front n records
    have hall := congrArg (List.flatMap (·.entries front)) hrest.symm
    rw [List.flatMap_append, List.flatMap_append] at hall
    rw [hall]
    cases htorn : (cutChanges n records).2 with
    | none =>
      simp only [Option.toList_none, List.flatMap_nil, List.append_nil, Option.mem_def, reduceCtorEq,
        IsEmpty.forall_iff, implies_true, iff_true]
      exact (List.prefix_append _ _).take 1000
    | some r =>
      rw [Option.toList_some, List.flatMap_singleton, List.flatMap_singleton, List.append_assoc,
        List.take_append, List.take_append, List.prefix_append_right_inj,
        take_front_iff (torn_length r front _), torn_entries r (cutChanges_moved htorn)]
      simp
  refine ⟨fun h => hshown.1 h.shown, fun h => ⟨hshown.2 h, changes_told, fun hall hfew => ?_⟩⟩
  rw [read_all hall, changes_all, List.take_of_length_le hfew]

end Kept
/-- A change as `diff --name-status -z` reports it. The paths of a rename are the old and the new. -/
structure ReviewRecord where
  status : List Char
  path : List Char
  previous : Option (List Char)
  statusField : Field status
  pathField : Field path
  previousField : ∀ p ∈ previous, Field p
  both : previous.isSome = status.head?.any moved

namespace ReviewRecord

/-- The fields in front of the last path. -/
def before (r : ReviewRecord) : List (List Char) := r.status :: r.previous.toList

def fields (r : ReviewRecord) : List (List Char) := r.before ++ [r.path]

/-- The path of a change and its previous path. -/
def shown (r : ReviewRecord) : String × Option String :=
  (String.ofList r.path, r.previous.map String.ofList)

def size (r : ReviewRecord) : ℕ := Fields.weight Char.utf8Size (Fields.join nul r.fields)

/-- What the change is shown as when the text ends in its last path. -/
def torn (n : ℕ) (r : ReviewRecord) : Option (String × Option String) :=
  let front := Fields.weight Char.utf8Size (Fields.join nul r.before)
  if front ≤ n then
    some (String.ofList (Fields.cut Char.utf8Size replacement (n - front) r.path),
      r.previous.map String.ofList)
  else none

end ReviewRecord

/-- What Git writes for a list of changes. -/
def names (records : List ReviewRecord) : List Char :=
  Fields.join nul (records.flatMap ReviewRecord.fields)

/-- The changes in front of a cut, and what the one behind them is shown as. -/
def cutFiles : ℕ → List ReviewRecord → List ReviewRecord × Option (String × Option String)
  | _, [] => ([], none)
  | n, r :: records =>
    if r.size ≤ n then (r :: (cutFiles (n - r.size) records).1, (cutFiles (n - r.size) records).2)
    else ([], r.torn n)

/-- Both paths may be shown. -/
def validFile (file : String × Option String) : Bool :=
  validPath file.1 && file.2.all validPath

/-- The changes that are shown, each path once. -/
def listed (files : List (String × Option String)) : List (String × Option String) :=
  FirstSeen.firsts (files.filter validFile)

def GitReviewFile.shown (e : GitReviewFile) : String × Option String := (e.path, e.previousPath)

section Listed

variable {files : List (String × Option String)} {file : String × Option String}

theorem listed_skip (h : validFile file = true → file.1 ∈ (listed files).map (·.1)) :
    listed (files ++ [file]) = listed files := by
  unfold listed at h ⊢
  rw [List.filter_append]
  by_cases hvalid : validFile file = true
  · rw [List.filter_cons_of_pos hvalid, List.filter_nil, FirstSeen.firsts_concat, FirstSeen.note,
      if_pos (h hvalid)]
  · rw [List.filter_cons_of_neg hvalid, List.filter_nil, List.append_nil]

theorem listed_new (hvalid : validFile file = true) (h : file.1 ∉ (listed files).map (·.1)) :
    listed (files ++ [file]) = listed files ++ [file] := by
  unfold listed at h ⊢
  rw [List.filter_append, List.filter_cons_of_pos hvalid, List.filter_nil, FirstSeen.firsts_concat,
    FirstSeen.note, if_neg h]

theorem listed_append (more : List (String × Option String)) :
    listed files <+: listed (files ++ more) := by
  unfold listed
  rw [List.filter_append]
  exact FirstSeen.firsts_append _

theorem paths_shown (entries : List GitReviewFile) :
    entries.map (·.path) = (entries.map (·.shown)).map (·.1) := by
  rw [List.map_map]
  rfl

/-- One file is added to those that are listed. -/
theorem addFile_listed (status path : List Char) (previous : Option (List Char))
    {entries : List GitReviewFile} (hfile : file = (String.ofList path, previous.map String.ofList))
    (h : entries.map (·.shown) = listed files) (hfew : entries.length ≤ fileLimit) :
    (∃ entries' left, addFile status path previous entries = .ok (entries', left) ∧
      entries'.map (·.shown) = listed (files ++ [file]) ∧ entries'.length ≤ fileLimit ∧
      (left = false → file.1 ∈ entries'.map (·.path))) ∨
    (addFile status path previous entries = .error entries ∧ entries.length = fileLimit) := by
  have hlisted : file.1 ∈ (listed files).map (·.1) ↔
      (entries.any fun e => e.path = String.ofList path) = true := by
    rw [← h, ← paths_shown, hfile]
    simp only [List.mem_map, List.any_eq_true, decide_eq_true_eq]
  have hvalid : validFile file = true ↔ ¬(validPath (String.ofList path) = false ∨
      (previous.map String.ofList).any (fun p => !validPath p) = true) := by
    subst hfile
    cases previous <;> simp [validFile]
  unfold addFile
  dsimp only
  split_ifs with hbad hold hfull
  · refine .inl ⟨entries, true, rfl, ?_, hfew, by simp⟩
    rw [h, listed_skip fun hok => absurd hbad (hvalid.1 hok)]
  · -- the path is listed; its status may change
    refine .inl ⟨_, false, rfl, ?_, by simpa using hfew, fun _ => ?_⟩
    · rw [listed_skip fun _ => hlisted.2 hold, ← h, List.map_map]
      refine List.map_congr_left fun e _ => ?_
      simp only [Function.comp_apply]
      split <;> rfl
    · have hmem := hlisted.2 hold
      rw [← h, ← paths_shown] at hmem
      rw [List.map_map]
      convert hmem using 2
      funext e
      simp only [Function.comp_apply]
      split <;> rfl
  · exact .inr ⟨rfl, hfull⟩
  · refine .inl ⟨_, false, rfl, ?_, ?_, fun _ => ?_⟩
    · rw [listed_new (hvalid.2 hbad) (mt hlisted.1 hold), List.map_append, h, hfile]
      rfl
    · rw [List.length_append, List.length_singleton]
      omega
    · rw [hfile]
      simp

/-- One change is read with all its fields. -/
theorem listingLoop_fields (status path : List Char) (previous : Option (List Char))
    (hstatus : status ≠ []) (hboth : previous.isSome = status.head?.any moved)
    (rest : List (List Char)) (entries : List GitReviewFile) (truncated : Bool) :
    listingLoop (status :: previous.toList ++ path :: rest) entries truncated =
      match addFile status path previous entries with
      | .error entries => (entries, true)
      | .ok (entries, left) => listingLoop rest entries (truncated || left) := by
  rw [List.cons_append, listingLoop.eq_def]
  dsimp only
  rw [if_neg hstatus, ← hboth]
  rcases previous with _ | previous
  · rfl
  · rfl

/-- Changes are read up to the limit, and where one is left out that is told. -/
theorem listingLoop_records : ∀ (records : List ReviewRecord) (tail : List (List Char))
    (files : List (String × Option String)) {entries : List GitReviewFile} (truncated : Bool),
    entries.map (·.shown) = listed files → entries.length ≤ fileLimit →
    (∃ entries' told,
      listingLoop (records.flatMap (·.fields) ++ tail) entries truncated =
        listingLoop tail entries' told ∧
      entries'.map (·.shown) = listed (files ++ records.map (·.shown)) ∧
      entries'.length ≤ fileLimit ∧
      (truncated = true → told = true) ∧
      (told = false → ∀ r ∈ records, r.shown.1 ∈ entries'.map (·.path))) ∨
    (∃ entries', listingLoop (records.flatMap (·.fields) ++ tail) entries truncated =
        (entries', true) ∧
      entries'.map (·.shown) <+: listed (files ++ records.map (·.shown)) ∧
      entries'.length = fileLimit)
  | [], tail, files, entries, truncated, h, hfew =>
    .inl ⟨entries, truncated, rfl, by simpa using h, hfew, id, by simp⟩
  | r :: records, tail, files, entries, truncated, h, hfew => by
    have hread := listingLoop_fields r.status r.path r.previous r.statusField.nonempty r.both
      (records.flatMap (·.fields) ++ tail) entries truncated
    have hfields : (r :: records).flatMap (·.fields) ++ tail =
        r.status :: r.previous.toList ++ r.path :: (records.flatMap (·.fields) ++ tail) := by
      simp [ReviewRecord.fields, ReviewRecord.before]
    rw [hfields, hread, List.map_cons, List.append_cons]
    rcases addFile_listed r.status r.path r.previous (rfl : r.shown = _) h hfew with
      ⟨entries₁, left, hadd, hshown, hfew₁, hpath⟩ | ⟨hadd, hfull⟩
    · rw [hadd]
      dsimp only
      rcases listingLoop_records records tail (files ++ [r.shown]) (truncated || left) hshown hfew₁
        with ⟨entries', told, heq, hlist, hle, hmono, htold⟩ | ⟨entries', heq, hlist, hlen⟩
      · refine .inl ⟨entries', told, heq, hlist, hle, fun ht => hmono (by simp [ht]), fun ht => ?_⟩
        have hquiet : left = false := by
          by_contra hleft
          rw [hmono (by simp [Bool.of_not_eq_false hleft])] at ht
          cases ht
        intro r' hr'
        rcases List.mem_cons.1 hr' with rfl | hr'
        · have hmem := hpath hquiet
          rw [paths_shown, hshown] at hmem
          rw [paths_shown, hlist]
          exact ((listed_append _).map _).subset hmem
        · exact htold ht r' hr'
      · exact .inr ⟨entries', heq, hlist, hlen⟩
    · rw [hadd]
      refine .inr ⟨entries, rfl, ?_, hfull⟩
      rw [h, ← List.append_cons]
      exact listed_append _

end Listed

section CutFiles

theorem cutFiles_front : ∀ (n : ℕ) (records : List ReviewRecord),
    (cutFiles n records).1 <+: records
  | _, [] => List.prefix_rfl
  | n, r :: records => by
    rw [cutFiles]
    split
    · exact List.prefix_cons_inj r |>.2 (cutFiles_front _ records)
    · exact List.nil_prefix

/-- The fields behind the whole changes: one more change whose last path is cut, or no path at
all. -/
inductive EndsIn : List (List Char) → Option (String × Option String) → Prop where
  | path (status path : List Char) (previous : Option (List Char)) (hstatus : status ≠ [])
      (hboth : previous.isSome = status.head?.any moved) :
      EndsIn (status :: previous.toList ++ [path])
        (some (String.ofList path, previous.map String.ofList))
  | nothing (tail : List (List Char))
      (h : ∀ entries truncated, (listingLoop tail entries truncated).1 = entries) :
      EndsIn tail none

theorem listingLoop_single (field : List Char) (entries : List GitReviewFile) (truncated : Bool) :
    (listingLoop [field] entries truncated).1 = entries := by
  rw [listingLoop.eq_def]
  dsimp only
  split <;> rfl

theorem listingLoop_pair {status : List Char} (first : List Char) (hstatus : status ≠ [])
    (hmoved : status.head?.any moved = true) (entries : List GitReviewFile) (truncated : Bool) :
    (listingLoop [status, first] entries truncated).1 = entries := by
  rw [listingLoop.eq_def]
  dsimp only
  rw [if_neg hstatus, if_pos hmoved]

/-- The fields of a change that is cut. -/
theorem cut_fields (r : ReviewRecord) (more : List (List Char)) {n : ℕ} (h : ¬r.size ≤ n) :
    EndsIn (Fields.whole Char.utf8Size nul n (r.fields ++ more) ++
      [Fields.torn Char.utf8Size replacement nul n (r.fields ++ more)]) (r.torn n) := by
  have hsize : r.size = Fields.weight Char.utf8Size (Fields.join nul r.before) +
      Fields.weight Char.utf8Size (r.path ++ [nul]) := by
    simp [ReviewRecord.size, ReviewRecord.fields, Fields.join]
  rw [ReviewRecord.torn, ReviewRecord.fields, List.append_assoc]
  split_ifs with hbefore
  · rw [Fields.whole_append_of_le _ hbefore, Fields.torn_append_of_le _ hbefore,
      List.singleton_append, Fields.whole, if_neg (by omega), Fields.torn, if_neg (by omega),
      List.append_nil]
    exact .path r.status _ r.previous r.statusField.nonempty r.both
  · have hjoin : Fields.weight Char.utf8Size (Fields.join nul r.before) =
        Fields.weight Char.utf8Size (r.status ++ [nul]) +
          Fields.weight Char.utf8Size (Fields.join nul r.previous.toList) := by
      simp [ReviewRecord.before, Fields.join, Nat.add_assoc]
    rw [ReviewRecord.before, List.cons_append, Fields.whole, Fields.torn]
    split_ifs with hstatus
    · cases hprevious : r.previous with
      | none =>
        rw [hprevious] at hjoin
        simp only [Option.toList_none, Fields.join, List.flatMap_nil, Fields.weight_nil] at hjoin
        unfold Fields.join at hbefore
        omega
      | some previous =>
        have hmoved : r.status.head?.any moved = true := by rw [← r.both, hprevious]; rfl
        have hlast : Fields.weight Char.utf8Size (Fields.join nul r.previous.toList) =
            Fields.weight Char.utf8Size (previous ++ [nul]) := by
          simp [hprevious, Fields.join]
        simp only [Option.toList_some, List.cons_append, List.nil_append]
        rw [Fields.whole, Fields.torn, if_neg (by omega), if_neg (by omega)]
        exact .nothing _ (listingLoop_pair _ r.statusField.nonempty hmoved)
    · exact .nothing _ (listingLoop_single _)

theorem cut_files : ∀ (n : ℕ) (records : List ReviewRecord), ∃ tail,
    Fields.whole Char.utf8Size nul n (records.flatMap (·.fields)) ++
        [Fields.torn Char.utf8Size replacement nul n (records.flatMap (·.fields))] =
      (cutFiles n records).1.flatMap (·.fields) ++ tail ∧ EndsIn tail (cutFiles n records).2
  | _, [] => ⟨[[]], rfl, .nothing _ (listingLoop_single _)⟩
  | n, r :: records => by
    rw [List.flatMap_cons, cutFiles]
    split_ifs with hsize
    · obtain ⟨tail, htail, hends⟩ := cut_files (n - r.size) records
      refine ⟨tail, ?_, hends⟩
      rw [Fields.whole_append_of_le _ hsize, Fields.torn_append_of_le _ hsize, List.append_assoc,
        List.flatMap_cons, List.append_assoc, ← htail]
      rfl
    · exact ⟨_, rfl, cut_fields r _ hsize⟩

theorem name_clean {records : List ReviewRecord} : ∀ f ∈ records.flatMap (·.fields), nul ∉ f := by
  intro f hf
  obtain ⟨r, -, hf⟩ := List.mem_flatMap.1 hf
  simp only [ReviewRecord.fields, ReviewRecord.before, List.mem_append, List.mem_cons,
    List.not_mem_nil, or_false, Option.mem_toList] at hf
  rcases hf with (rfl | hf) | rfl
  · exact r.statusField.clean
  · exact (r.previousField f hf).clean
  · exact r.pathField.clean

theorem names_split (n : ℕ) (records : List ReviewRecord) :
    (read n (names records)).1.splitOn nul =
      Fields.whole Char.utf8Size nul n (records.flatMap (·.fields)) ++
        [Fields.torn Char.utf8Size replacement nul n (records.flatMap (·.fields))] := by
  rw [read, names, Fields.cut_join nul_size]
  exact Fields.splitOn_join (Fields.not_mem_torn (by decide) name_clean)
    fun f hf => name_clean f (Fields.mem_whole hf)

/-- What is shown of a list whose last change is cut. -/
theorem listing_shown (n : ℕ) (records : List ReviewRecord) (truncated : Bool) :
    (listing ((read n (names records)).1, truncated)).1.map (·.shown) =
      (listed ((cutFiles n records).1.map (·.shown) ++ (cutFiles n records).2.toList)).take
        fileLimit := by
  obtain ⟨tail, htail, hends⟩ := cut_files n records
  unfold listing
  dsimp only
  rw [names_split, htail]
  have hstart : ([] : List GitReviewFile).map (·.shown) = listed [] := rfl
  rcases listingLoop_records (cutFiles n records).1 tail [] truncated hstart (Nat.zero_le _) with
    ⟨entries, told, heq, hlist, hfew, -, -⟩ | ⟨entries, heq, hlist, hfull⟩
  · rw [heq]
    rw [List.nil_append] at hlist
    generalize (cutFiles n records).2 = key at hends ⊢
    cases hends with
    | path status path previous hstatus hboth =>
      have hread := listingLoop_fields status path previous hstatus hboth [] entries told
      rw [hread]
      rcases addFile_listed status path previous rfl hlist hfew with
        ⟨entries₁, left, hadd, hshown, hfew₁, -⟩ | ⟨hadd, hfull⟩
      · rw [hadd, Option.toList_some, ← hshown, List.take_of_length_le (by simpa using hfew₁)]
        rfl
      · rw [hadd, ← hfull, hlist]
        have hlen : entries.length = (listed ((cutFiles n records).1.map (·.shown))).length := by
          rw [← hlist, List.length_map]
        rw [hlen, ← List.prefix_iff_eq_take.1 (listed_append _)]
    | nothing _ hnothing =>
      rw [hnothing, hlist, Option.toList_none, List.append_nil, List.take_of_length_le]
      rw [← hlist, List.length_map]
      exact hfew
  · rw [heq, ← hfull, ← List.length_map (·.shown)]
    exact List.prefix_iff_eq_take.1 ((List.nil_append _ ▸ hlist).trans (listed_append _))

/-- Without a cut every change is whole. -/
theorem cutFiles_all : ∀ {n : ℕ} {records : List ReviewRecord},
    Fields.weight Char.utf8Size (names records) ≤ n → cutFiles n records = (records, none)
  | _, [], _ => rfl
  | n, r :: records, h => by
    have hsum : Fields.weight Char.utf8Size (names (r :: records)) =
        r.size + Fields.weight Char.utf8Size (names records) := by
      rw [names, List.flatMap_cons, Fields.join_append, Fields.weight_append]
      rfl
    rw [cutFiles, if_pos (by omega), cutFiles_all (by omega)]

end CutFiles

section ListingKept

variable {n : ℕ} {records : List ReviewRecord}

/-- What is shown of a comparison whose output is cut at `n`: what is listed without a cut, as far
as it goes, with the same paths and previous paths; where a change is left out, that is told; and
none is left out, and none shown twice, without a cut and a limit. -/
structure ListingKept (n : ℕ) (records : List ReviewRecord) : Prop where
  shown : (listing (read n (names records))).1.map (·.shown) <+:
    (listing (names records, false)).1.map (·.shown)
  told : (∃ r ∈ records, r.shown.1 ∉ (listing (read n (names records))).1.map (·.path)) →
    (listing (read n (names records))).2 = true
  complete : Fields.weight Char.utf8Size (names records) ≤ n →
    (∀ r ∈ records, validFile r.shown = true) →
    (listed (records.map (·.shown))).length ≤ fileLimit →
    ((listing (read n (names records))).1.map (·.path)).Nodup ∧
      (∀ r ∈ records, r.shown.1 ∈ (listing (read n (names records))).1.map (·.path)) ∧
      ∀ e ∈ (listing (read n (names records))).1, e.shown ∈ records.map (·.shown)

/-- What the cut leaves of a path is no path that may be shown, or is listed, or comes behind the
limit, unless it is by chance the next change that is not listed. -/
def SparesPath (n : ℕ) (records : List ReviewRecord) : Prop :=
  ∀ file ∈ (cutFiles n records).2,
    validFile file = true →
    file.1 ∉ (listed ((cutFiles n records).1.map (·.shown))).map (·.1) →
    (listed ((cutFiles n records).1.map (·.shown))).length < fileLimit →
    ((records.drop (cutFiles n records).1.length).map (·.shown)).find? (fun next =>
      validFile next ∧
        next.1 ∉ (listed ((cutFiles n records).1.map (·.shown))).map (·.1)) = some file

theorem names_read (h : Fields.weight Char.utf8Size (names records) ≤ n) :
    read n (names records) = (names records, false) := by
  rw [read, Fields.cut_of_le h]
  simpa using h

theorem listing_all (records : List ReviewRecord) (truncated : Bool) :
    (listing (names records, truncated)).1.map (·.shown) =
      (listed (records.map (·.shown))).take fileLimit := by
  have hshown := listing_shown (Fields.weight Char.utf8Size (names records)) records truncated
  rw [names_read le_rfl, cutFiles_all le_rfl] at hshown
  simpa using hshown

/-- The change behind those that are listed. -/
theorem listed_next (files more : List (String × Option String)) :
    (listed (files ++ more))[(listed files).length]? =
      more.find? fun next => validFile next ∧ next.1 ∉ (listed files).map (·.1) := by
  unfold listed
  rw [List.filter_append, FirstSeen.firsts_next, List.find?_filter]
  congr 1
  funext next
  simp

theorem listingLoop_cut (fields : List (List Char)) (entries : List GitReviewFile) :
    (listingLoop fields entries true).2 = true := by
  generalize ht : true = truncated
  fun_induction listingLoop fields entries truncated <;> simp_all

theorem listing_told (h : ∃ r ∈ records,
    r.shown.1 ∉ (listing (read n (names records))).1.map (·.path)) :
    (listing (read n (names records))).2 = true := by
  obtain ⟨r, hr, hmissing⟩ := h
  by_cases hcut : n < Fields.weight Char.utf8Size (names records)
  · have htrue : (read n (names records)).2 = true := by simpa [read] using hcut
    unfold listing
    rw [htrue]
    exact listingLoop_cut _ _
  · have hall := Nat.not_lt.1 hcut
    obtain ⟨tail, htail, hends⟩ := cut_files n records
    rw [cutFiles_all hall] at htail hends
    unfold listing at hmissing ⊢
    rw [names_split, htail, names_read hall] at hmissing ⊢
    have hstart : ([] : List GitReviewFile).map (·.shown) = listed [] := rfl
    rcases listingLoop_records records tail [] false hstart (Nat.zero_le _) with
      ⟨entries, told, heq, -, -, -, hpresent⟩ | ⟨entries, heq, -, -⟩
    · rw [heq] at hmissing ⊢
      cases hends with
      | nothing _ hnothing =>
        rw [hnothing] at hmissing
        have htold : told = true := by
          by_contra hquiet
          exact hmissing (hpresent (by simpa using hquiet) r hr)
        rw [htold]
        exact listingLoop_cut _ _
    · rw [heq]

/-- One file more is in front of those that come without a cut just where it is the next of them. -/
theorem one_more {files more : List (String × Option String)} {file : String × Option String} :
    (listed (files ++ [file])).take fileLimit <+: (listed (files ++ more)).take fileLimit ↔
      (validFile file = true → file.1 ∉ (listed files).map (·.1) →
        (listed files).length < fileLimit →
        (listed (files ++ more))[(listed files).length]? = some file) := by
  obtain ⟨rest, hrest⟩ := @listed_append files more
  by_cases hold : validFile file = true → file.1 ∈ (listed files).map (·.1)
  · rw [listed_skip hold, ← hrest]
    exact ⟨fun _ hvalid hnew => absurd (hold hvalid) hnew,
      fun _ => (List.prefix_append _ rest).take fileLimit⟩
  · obtain ⟨hvalid, hnew⟩ := Classical.not_imp.1 hold
    rw [listed_new hvalid hnew, ← hrest, List.take_append, List.take_append,
      List.prefix_append_right_inj, List.getElem?_append_right le_rfl, Nat.sub_self]
    by_cases hroom : (listed files).length < fileLimit
    · obtain ⟨k, hk⟩ : ∃ k, fileLimit - (listed files).length = k + 1 :=
        ⟨fileLimit - (listed files).length - 1, by omega⟩
      rw [hk, List.take_succ_cons, List.take_nil]
      cases rest with
      | nil => simp [hvalid, hnew, hroom]
      | cons next rest => simp [hvalid, hnew, hroom, eq_comm]
    · have hzero : fileLimit - (listed files).length = 0 := by omega
      simp [hzero, hroom]

/-- A cut listing of a comparison shows what is there just where the cut spares the paths. -/
theorem listingKept_iff : ListingKept n records ↔ SparesPath n records := by
  have hshown : (listing (read n (names records))).1.map (·.shown) <+:
      (listing (names records, false)).1.map (·.shown) ↔ SparesPath n records := by
    have hread := listing_shown n records (read n (names records)).2
    rw [show ((read n (names records)).1, (read n (names records)).2) = read n (names records) from
      rfl] at hread
    rw [hread, listing_all, SparesPath]
    obtain ⟨rest, hrest⟩ := cutFiles_front n records
    have hdrop : records.drop (cutFiles n records).1.length = rest :=
      (congrArg (List.drop (cutFiles n records).1.length) hrest.symm).trans List.drop_left
    have hall : records.map (·.shown) = (cutFiles n records).1.map (·.shown) ++ rest.map (·.shown) := by
      rw [← List.map_append, hrest]
    rw [hdrop, hall, ← listed_next]
    generalize (cutFiles n records).1.map (·.shown) = files
    generalize rest.map (·.shown) = more
    cases (cutFiles n records).2 with
    | none =>
      simp only [Option.toList_none, List.append_nil, Option.mem_def, reduceCtorEq,
        IsEmpty.forall_iff, implies_true, iff_true]
      exact (listed_append more).take fileLimit
    | some file =>
      simp only [Option.toList_some, Option.mem_def, Option.some.injEq, forall_eq']
      exact one_more
  refine ⟨fun h => hshown.1 h.shown, fun h => ⟨hshown.2 h, listing_told, fun hall hvalid hfew => ?_⟩⟩
  have hlist : (listing (read n (names records))).1.map (·.shown) =
      listed (records.map (·.shown)) := by
    rw [names_read hall, listing_all, List.take_of_length_le hfew]
  have hfilter : (records.map (·.shown)).filter validFile = records.map (·.shown) := by
    rw [List.filter_eq_self]
    intro file hfile
    obtain ⟨r, hr, rfl⟩ := List.mem_map.1 hfile
    exact hvalid r hr
  rw [paths_shown, hlist, listed, hfilter]
  refine ⟨FirstSeen.nodup_keys, fun r hr => ?_, fun e he => ?_⟩
  · rw [FirstSeen.mem_keys]
    exact List.mem_map_of_mem (List.mem_map_of_mem hr)
  · have hmem := List.mem_map_of_mem (f := GitReviewFile.shown) he
    rw [hlist, listed, hfilter] at hmem
    exact FirstSeen.firsts_subset hmem

end ListingKept

/-- Cut listings show what is there just where the cut spares the paths. -/
theorem listings_kept (n : ℕ) :
    (∀ front records, ChangesKept front n records ↔ SparesRename front n records) ∧
      ∀ records, ListingKept n records ↔ SparesPath n records :=
  ⟨fun _ _ => changesKept_iff, fun _ => listingKept_iff⟩

/-- `old` renamed to `new`. -/
def renamed : StatusRecord where
  x := 'R'
  y := ' '
  path := "new".toList
  previous := some "old".toList
  ascii := by simp [nul]
  pathField := ⟨by decide, by decide⟩
  previousField := fun p hp => by
    obtain rfl := Option.some.inj hp
    exact ⟨by decide, by decide⟩
  both := by decide

def modified : ReviewRecord where
  status := ['M']
  path := "src/main.rs".toList
  previous := none
  statusField := ⟨by decide, by decide⟩
  pathField := ⟨by decide, by decide⟩
  previousField := fun _ hp => by cases hp
  both := by decide

/-- A cut behind the new path of a rename gives it an empty previous path, and one within the path
of a change lists the front of that path as a file. -/
theorem cut_invents : ¬ChangesKept [] 7 [renamed] ∧ ¬ListingKept 5 [modified] := by
  constructor
  · rintro ⟨hshown, -, -⟩
    revert hshown
    decide +kernel
  · rintro ⟨hshown, -, -⟩
    revert hshown
    decide +kernel

example : (changes ['\n'] (read 7 (output [renamed]))).1.map (·.previousPath) = [some ""] := by
  decide +kernel

example : (listing (read 5 (names [modified]))).1.map (·.path) = ["src"] := by decide +kernel

end Git

end LatteWork
