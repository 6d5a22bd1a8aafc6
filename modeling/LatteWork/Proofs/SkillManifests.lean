import LatteWork.Proofs.SkillImports
import LatteWork.Workbench.SkillImport
import Mathlib.Data.List.Dedup

/-!
# Client and server agree on a manifest

The client asks of the files of a skill what the server asks of them, but for the control characters
behind ASCII. Otherwise what the client uploads is staged, up to its installation, and what the client
refuses for its paths the server refuses too.
-/

namespace LatteWork

namespace SkillImport

open Skills (SkillImportFile Path Files Op Os isCompleted absolute Found Valid)
open Prog PathTree

/-- The control characters behind ASCII. -/
def isHighControl (c : Char) : Bool := 128 ≤ c.toNat && c.toNat < 160

/-- A path without them. -/
def Plain (path : String) : Prop := ∀ c ∈ path.toList, isHighControl c = false

variable {uploads : Path} {found found' : SkillImport.Found} {f : SkillFile} {item : SkillImportFile}
  {files : List SkillFile} {items : List SkillImportFile}

section manifests

/-- The server's class of characters is the client's and the control characters behind ASCII. -/
theorem badPart_eq (part : String) :
    Skills.badPart part = (badPart part || part.toList.any isHighControl) := by
  have hchars : (part.toList.contains '\\' || part.toList.any Store.isControl) =
      ((part.toList.any fun c => c = '\\' || c.toNat < 0x20 || c.toNat = 0x7f) ||
        part.toList.any isHighControl) := by
    rw [Bool.eq_iff_iff]
    simp only [Bool.or_eq_true, List.contains_iff_mem, List.any_eq_true, Store.isControl, isHighControl,
      Bool.and_eq_true, decide_eq_true_eq]
    constructor
    · rintro (h | ⟨c, hc, h⟩)
      · exact .inl ⟨_, h, .inl (.inl rfl)⟩
      · rcases Nat.lt_or_ge c.toNat 128 with hlt | hge
        · refine .inl ⟨c, hc, ?_⟩
          omega
        · refine .inr ⟨c, hc, ?_⟩
          omega
    · rintro (⟨c, hc, (rfl | h) | h⟩ | ⟨c, hc, h⟩)
      · exact .inl hc
      · exact .inr ⟨c, hc, .inl h⟩
      · exact .inr ⟨c, hc, by omega⟩
      · exact .inr ⟨c, hc, by omega⟩
  unfold Skills.badPart badPart
  rw [Bool.or_assoc _ (part.toList.contains '\\'), hchars]
  cases decide (part = "") <;> cases decide (part = ".") <;> cases decide (part = "..") <;>
    cases decide (255 < part.utf8ByteSize) <;> simp

/-- The characters of a path are those of its parts, and slashes. -/
theorem mem_path {path : String} {c : Char} (hne : c ≠ '/') :
    c ∈ path.toList ↔ ∃ part ∈ pathParts path, c ∈ part.toList := by
  obtain ⟨fields, q, htext, hparts, -⟩ := Skills.exists_parts path
  rw [hparts, htext]
  constructor
  · intro h
    rcases List.mem_append.1 h with h | h
    · obtain ⟨field, hfield, hc⟩ := List.mem_flatMap.1 h
      have hc' : c ∈ field := (List.mem_append.1 hc).resolve_right fun h => hne (List.mem_singleton.1 h)
      exact ⟨_, List.mem_map_of_mem (List.mem_append_left _ hfield), by rwa [String.toList_ofList]⟩
    · exact ⟨_, List.mem_map_of_mem (List.mem_append_right _ List.mem_cons_self), by rwa [String.toList_ofList]⟩
  · rintro ⟨part, hpart, hc⟩
    obtain ⟨field, hfield, rfl⟩ := List.mem_map.1 hpart
    rw [String.toList_ofList] at hc
    rcases List.mem_append.1 hfield with hfield | hfield
    · exact List.mem_append_left _ (List.mem_flatMap.2 ⟨field, hfield, List.mem_append_left _ hc⟩)
    · obtain rfl := List.mem_singleton.1 hfield
      exact List.mem_append_right _ hc

theorem plain_iff {path : String} :
    Plain path ↔ ∀ part ∈ pathParts path, part.toList.any isHighControl = false := by
  constructor
  · intro h part hpart
    rw [List.any_eq_false]
    intro c hc
    have hne : c ≠ '/' := by
      rintro rfl
      exact Skills.pathParts_free hpart hc
    rw [h c ((mem_path hne).2 ⟨part, hpart, hc⟩)]
    exact nofun
  · intro h c hc
    by_cases hne : c = '/'
    · rw [hne]
      decide
    · obtain ⟨part, hpart, hmem⟩ := (mem_path hne).1 hc
      have := List.any_eq_false.1 (h part hpart) c hmem
      simpa using this

/-- The parts that the server refuses: those that the client refuses, and those that are not plain. -/
theorem any_badPart (path : String) : (pathParts path).any Skills.badPart = true ↔
    (pathParts path).any badPart = true ∨ ¬Plain path := by
  rw [plain_iff]
  simp only [List.any_eq_true, badPart_eq, Bool.or_eq_true, not_forall]
  constructor
  · rintro ⟨part, hpart, hbad | ⟨c, hc, hhigh⟩⟩
    · exact .inl ⟨part, hpart, hbad⟩
    · refine .inr ⟨part, hpart, ?_⟩
      rw [Bool.not_eq_false, List.any_eq_true]
      exact ⟨c, hc, hhigh⟩
  · rintro (⟨part, hpart, hbad⟩ | ⟨part, hpart, hhigh⟩)
    · exact ⟨part, hpart, .inl hbad⟩
    · rw [Bool.not_eq_false, List.any_eq_true] at hhigh
      exact ⟨part, hpart, .inr hhigh⟩

/-- A file that the client takes, the server takes. -/
theorem checkFile_server (hpath : item.path = f.path) (hcompleted : isCompleted uploads item.attachment = true)
    (hplain : Plain f.path) (h : checkFile found f = .ok found') :
    Skills.checkFile uploads (found.paths, found.directories) item =
      .ok (found'.paths, found'.directories) := by
  simp only [checkFile, Fallible.bind_eq_ok, Fallible.bailIf_eq_ok, Except.ok.injEq] at h
  obtain ⟨-, hgood, -, -, rfl⟩ := h
  simp only [Skills.checkFile, Fallible.bind_eq_ok, Fallible.bailIf_eq_ok, Except.ok.injEq, hpath,
    hcompleted, any_badPart]
  exact ⟨(), by tauto, (), by simp, rfl⟩

/-- A file that the server takes, the client takes, unless it is too large. -/
theorem checkFile_client (hpath : item.path = f.path) {names directories : List String}
    (h : Skills.checkFile uploads (found.paths, found.directories) item = .ok (names, directories)) :
    checkFile found f = .error .bytes ∨
      ∃ bytes, checkFile found f = .ok { bytes, paths := names, directories } := by
  simp only [Skills.checkFile, Fallible.bind_eq_ok, Fallible.bailIf_eq_ok, Except.ok.injEq, hpath,
    any_badPart] at h
  obtain ⟨-, hgood, -, -, heq⟩ := h
  obtain ⟨rfl, rfl⟩ := Prod.mk.inj heq
  unfold checkFile
  dsimp only
  rw [Fallible.bailIf_pass (by tauto)]
  by_cases hlarge : maxBytes < found.bytes + f.size ∨ f.path = "SKILL.md" ∧ 65536 < f.size
  · exact .inl (Fallible.bailIf_error hlarge)
  · rw [Fallible.bailIf_pass hlarge]
    exact .inr ⟨_, rfl⟩

/-- A file and its upload. -/
def Uploaded (uploads : Path) (base : Files) (f : SkillFile) (item : SkillImportFile) : Prop :=
  item.path = f.path ∧ isCompleted uploads item.attachment = true ∧
    ∃ bytes mode, base.node (absolute item.attachment) = some (.file bytes mode) ∧ bytes.length = f.size

variable {base : Files}

theorem foldlM_server : ∀ {files : List SkillFile} {items : List SkillImportFile}
    {found found' : SkillImport.Found}, List.Forall₂ (Uploaded uploads base) files items →
    (∀ f ∈ files, Plain f.path) → files.foldlM checkFile found = .ok found' →
    items.foldlM (Skills.checkFile uploads) (found.paths, found.directories) =
      .ok (found'.paths, found'.directories)
  | [], _, _, _, h, _, hfold => by
    obtain rfl := List.forall₂_nil_left_iff.1 h
    obtain rfl := Except.ok.inj hfold
    rfl
  | f :: files, _, found, found', h, hplain, hfold => by
    obtain ⟨item, items, hf, hrest, rfl⟩ := List.forall₂_cons_left_iff.1 h
    rw [List.foldlM_cons, Fallible.bind_eq_ok] at hfold
    obtain ⟨mid, hmid, hfold⟩ := hfold
    rw [List.foldlM_cons, Fallible.bind_eq_ok]
    exact ⟨_, checkFile_server hf.1 hf.2.1 (hplain f List.mem_cons_self) hmid,
      foldlM_server hrest (fun g hg => hplain g (List.mem_cons_of_mem f hg)) hfold⟩

theorem foldlM_client : ∀ {files : List SkillFile} {items : List SkillImportFile}
    {found : SkillImport.Found} {names directories : List String},
    items.map (·.path) = files.map (·.path) →
    items.foldlM (Skills.checkFile uploads) (found.paths, found.directories) = .ok (names, directories) →
    files.foldlM checkFile found = .error .bytes ∨
      ∃ bytes, files.foldlM checkFile found = .ok { bytes, paths := names, directories }
  | [], items, found, names, directories, h, hfold => by
    obtain rfl := List.map_eq_nil_iff.1 h
    obtain ⟨rfl, rfl⟩ := Prod.mk.inj (Except.ok.inj hfold)
    exact .inr ⟨found.bytes, rfl⟩
  | f :: files, items, found, names, directories, h, hfold => by
    cases items with
    | nil => cases h
    | cons item items =>
      obtain ⟨hpath, hrest⟩ := List.cons.inj h
      rw [List.foldlM_cons, Fallible.bind_eq_ok] at hfold
      obtain ⟨⟨n, d⟩, hmid, hfold⟩ := hfold
      rw [List.foldlM_cons]
      rcases checkFile_client hpath hmid with hlarge | ⟨bytes, hok⟩
      · rw [hlarge]
        exact .inl rfl
      · rw [hok]
        exact @foldlM_client files items ⟨bytes, n, d⟩ names directories hrest hfold

/-- A manifest that the client accepts, of files that are uploaded, the server accepts. -/
theorem checkFiles_server (huploaded : List.Forall₂ (Uploaded uploads base) files items)
    (hplain : ∀ f ∈ files, Plain f.path) (h : validateSkillFiles files = .ok ()) :
    items ≠ [] ∧ items.length ≤ 512 ∧ Skills.checkFiles uploads items = .ok () := by
  simp only [validateSkillFiles, Fallible.bind_eq_ok, Fallible.bailIf_eq_ok, not_or, not_lt] at h
  obtain ⟨-, ⟨hne, hfew⟩, found, hfold, -, hmarkdown, hclash⟩ := h
  have hlen := huploaded.length_eq
  refine ⟨?_, by omega, ?_⟩
  · rintro rfl
    exact hne (List.forall₂_nil_right_iff.1 huploaded)
  · have hserver := foldlM_server huploaded hplain hfold
    simp only [Skills.checkFiles, Fallible.bind_eq_ok, Fallible.bailIf_eq_ok, Prod.exists, not_or, not_lt]
    exact ⟨_, _, hserver, (), hclash, hmarkdown⟩

/-- A manifest that the server accepts, the client accepts, unless the files are too large. -/
theorem validateSkillFiles_client (hpaths : items.map (·.path) = files.map (·.path)) (hne : items ≠ [])
    (hfew : items.length ≤ 512) (h : Skills.checkFiles uploads items = .ok ()) :
    validateSkillFiles files = .ok () ∨ validateSkillFiles files = .error .bytes := by
  simp only [Skills.checkFiles, Fallible.bind_eq_ok, Fallible.bailIf_eq_ok, Prod.exists] at h
  obtain ⟨names, directories, hfold, -, hclash, hmarkdown⟩ := h
  have hlen : items.length = files.length := by simpa using congrArg List.length hpaths
  have hentries : ¬(files = [] ∨ 512 < files.length) := by
    rintro (rfl | hmany)
    · exact hne (List.map_eq_nil_iff.1 hpaths)
    · omega
  unfold validateSkillFiles
  rw [Fallible.bailIf_pass hentries]
  rcases @foldlM_client uploads files items {} names directories hpaths hfold with hlarge | ⟨bytes, hok⟩
  · rw [hlarge]
    exact .inr rfl
  · rw [hok]
    refine .inl ?_
    simp only [Fallible.bind_eq_ok, Fallible.bailIf_eq_ok, Except.ok.injEq, exists_eq_left']
    exact ⟨(), hmarkdown, hclash⟩

/-- No path is, or leads to, another. -/
def Apart (a b : SkillImportFile) : Prop :=
  ¬pathParts a.path <+: pathParts b.path ∧ ¬pathParts b.path <+: pathParts a.path

theorem checkFiles_apart (h : Skills.checkFiles uploads items = .ok ()) : items.Pairwise Apart := by
  simp only [Skills.checkFiles, Fallible.bind_eq_ok, Fallible.bailIf_eq_ok, Prod.exists, not_or, not_exists,
    not_and] at h
  obtain ⟨names, directories, hfold, -, ⟨-, hclash⟩, -⟩ := h
  have hfound := (Skills.foldlM_found hfold).2.2
  -- a path that leads to another is one of the directories
  have hnot {a b : SkillImportFile} (ha : a ∈ items) (hb : b ∈ items) (hne : a.path ≠ b.path) :
      ¬pathParts a.path <+: pathParts b.path := by
    intro hpre
    obtain ⟨-, hname, -⟩ := hfound a ha
    obtain ⟨-, -, hdirectories⟩ := hfound b hb
    have hlt : (pathParts a.path).length < (pathParts b.path).length := by
      refine lt_of_le_of_ne hpre.length_le fun hlen => hne ?_
      rw [← Skills.joinParts_pathParts a.path, hpre.eq_of_length hlen, Skills.joinParts_pathParts]
    have hdirectory := hdirectories _ (List.length_pos_of_ne_nil (Skills.pathParts_ne_nil a.path)) hlt
    rw [← List.prefix_iff_eq_take.1 hpre, Skills.joinParts_pathParts] at hdirectory
    exact hclash _ hdirectory hname
  have hdistinct : ∀ {items : List SkillImportFile} {found found' : List String × List String},
      items.foldlM (Skills.checkFile uploads) found = .ok found' →
      items.Pairwise (fun a b => a.path ≠ b.path) ∧ ∀ item ∈ items, item.path ∉ found.1 := by
    intro items
    induction items with
    | nil => exact fun _ => ⟨.nil, fun _ h => absurd h List.not_mem_nil⟩
    | cons item items ih =>
      intro found found' hfold
      rw [List.foldlM_cons, Fallible.bind_eq_ok] at hfold
      obtain ⟨mid, hmid, hrest⟩ := hfold
      obtain ⟨hpairs, hnew⟩ := ih hrest
      simp only [Skills.checkFile, Fallible.bind_eq_ok, Fallible.bailIf_eq_ok, Except.ok.injEq] at hmid
      obtain ⟨-, hpath, -, -, rfl⟩ := hmid
      refine ⟨List.pairwise_cons.2 ⟨fun b hb heq => ?_, hpairs⟩, fun b hb => ?_⟩
      · exact hnew b hb (by rw [← heq]; exact List.mem_cons_self)
      · rcases List.mem_cons.1 hb with rfl | hb
        · tauto
        · exact fun hmem => hnew b hb (List.mem_cons_of_mem _ hmem)
  refine (hdistinct hfold).1.imp_of_mem fun ha hb hne => ?_
  exact ⟨hnot ha hb hne, hnot hb ha hne.symm⟩

/-- What the files of a manifest that the client accepts may weigh. -/
theorem validateSkillFiles_sizes (h : validateSkillFiles files = .ok ()) :
    (files.map (·.size)).sum ≤ maxBytes ∧ ∀ f ∈ files, f.path = "SKILL.md" → f.size ≤ 65536 := by
  simp only [validateSkillFiles, Fallible.bind_eq_ok, Fallible.bailIf_eq_ok] at h
  obtain ⟨-, -, found, hfold, -⟩ := h
  have hsizes : ∀ {files : List SkillFile} {found found' : SkillImport.Found},
      found.bytes ≤ maxBytes → files.foldlM checkFile found = .ok found' →
      found.bytes + (files.map (·.size)).sum ≤ maxBytes ∧
        ∀ f ∈ files, f.path = "SKILL.md" → f.size ≤ 65536 := by
    intro files
    induction files with
    | nil => exact fun hle _ => ⟨hle, fun _ h => absurd h List.not_mem_nil⟩
    | cons f files ih =>
      intro found found' _ hfold
      rw [List.foldlM_cons, Fallible.bind_eq_ok] at hfold
      obtain ⟨mid, hmid, hrest⟩ := hfold
      simp only [checkFile, Fallible.bind_eq_ok, Fallible.bailIf_eq_ok, Except.ok.injEq, not_or, not_lt,
        not_and] at hmid
      obtain ⟨-, -, -, ⟨hle, hmarkdown⟩, rfl⟩ := hmid
      obtain ⟨hsum, hall⟩ := ih hle hrest
      refine ⟨?_, fun g hg => ?_⟩
      · rw [List.map_cons, List.sum_cons]
        dsimp only at hsum
        omega
      · rcases List.mem_cons.1 hg with rfl | hg
        · exact hmarkdown
        · exact hall g hg
  obtain ⟨hsum, hall⟩ := hsizes (Nat.zero_le _) hfold
  exact ⟨by simpa using hsum, hall⟩

end manifests

section limits

/-- The directories on the path of a file. -/
def ancestors (path : String) : List String :=
  (List.range' 1 ((pathParts path).length - 1)).map fun n => joinParts ((pathParts path).take n)

/-- The directories that lead to the files. -/
def folders (files : List SkillFile) : List String := (files.flatMap fun f => ancestors f.path).dedup

/-- A path that may be taken. -/
def Takable (path : String) : Prop :=
  path.utf8ByteSize ≤ 1024 ∧ (pathParts path).length ≤ 9 ∧ (pathParts path).any badPart = false

/-- The limits of a manifest. -/
structure Acceptable (files : List SkillFile) : Prop where
  some : files ≠ []
  few : files.length ≤ 512
  paths : ∀ f ∈ files, Takable f.path
  distinct : (files.map (·.path)).Nodup
  bytes : (files.map (·.size)).sum ≤ maxBytes
  markdown : "SKILL.md" ∈ files.map (·.path)
  small : ∀ f ∈ files, f.path = "SKILL.md" → f.size ≤ 65536
  entries : files.length + (folders files).length ≤ 512
  apart : ∀ p ∈ folders files, p ∉ files.map (·.path)

/-- What the loop has found behind a file that it takes. -/
def Found.add (found : SkillImport.Found) (f : SkillFile) : SkillImport.Found where
  bytes := found.bytes + f.size
  paths := f.path :: found.paths
  directories := (List.range' 1 ((pathParts f.path).length - 1)).foldl
    (fun l n => l.insert (joinParts ((pathParts f.path).take n))) found.directories

theorem checkFile_ok_iff : checkFile found f = .ok found' ↔ Takable f.path ∧ f.path ∉ found.paths ∧
    found.bytes + f.size ≤ maxBytes ∧ (f.path = "SKILL.md" → f.size ≤ 65536) ∧ found' = found.add f := by
  unfold checkFile
  dsimp only
  simp only [Fallible.bind_eq_ok, Fallible.bailIf_eq_ok, Except.ok.injEq, not_or, not_lt, not_and, Takable,
    Bool.not_eq_true]
  constructor
  · rintro ⟨-, ⟨h1, h2, h3, h4⟩, -, ⟨h5, h6⟩, rfl⟩
    exact ⟨⟨h1, h2, h3⟩, h4, h5, h6, rfl⟩
  · rintro ⟨⟨h1, h2, h3⟩, h4, h5, h6, rfl⟩
    exact ⟨(), ⟨h1, h2, h3, h4⟩, (), ⟨h5, h6⟩, rfl⟩

theorem foldlM_ok_iff : ∀ {files : List SkillFile} {found found' : SkillImport.Found},
    found.bytes ≤ maxBytes → (files.foldlM checkFile found = .ok found' ↔
      ((∀ f ∈ files, Takable f.path ∧ f.path ∉ found.paths ∧ (f.path = "SKILL.md" → f.size ≤ 65536)) ∧
        (files.map (·.path)).Nodup ∧ found.bytes + (files.map (·.size)).sum ≤ maxBytes) ∧
      found' = files.foldl Found.add found)
  | [], found, found', hle => by
    simp only [List.foldlM_nil, Fallible.pure_eq_ok]
    constructor
    · rintro rfl
      exact ⟨⟨fun _ h => absurd h List.not_mem_nil, .nil, hle⟩, rfl⟩
    · rintro ⟨-, rfl⟩
      rfl
  | f :: files, found, found', hle => by
    rw [List.foldlM_cons, Fallible.bind_eq_ok]
    constructor
    · rintro ⟨mid, hmid, hrest⟩
      obtain ⟨htake, hnew, hbytes, hsmall, rfl⟩ := checkFile_ok_iff.1 hmid
      obtain ⟨⟨hall, hnodup, hsum⟩, rfl⟩ := (foldlM_ok_iff (show (found.add f).bytes ≤ maxBytes from hbytes)).1 hrest
      refine ⟨⟨List.forall_mem_cons.2 ⟨⟨htake, hnew, hsmall⟩, fun g hg => ?_⟩, ?_, ?_⟩, rfl⟩
      · obtain ⟨htake, hnot, hsmall⟩ := hall g hg
        exact ⟨htake, fun h => hnot (List.mem_cons_of_mem _ h), hsmall⟩
      · rw [List.map_cons, List.nodup_cons]
        refine ⟨fun hmem => ?_, hnodup⟩
        obtain ⟨g, hg, hpath⟩ := List.mem_map.1 hmem
        exact (hall g hg).2.1 (hpath ▸ List.mem_cons_self)
      · rw [List.map_cons, List.sum_cons]
        have hsum' : found.bytes + f.size + (files.map (·.size)).sum ≤ maxBytes := hsum
        omega
    · rintro ⟨⟨hall, hnodup, hsum⟩, rfl⟩
      obtain ⟨⟨htake, hnew, hsmall⟩, hrest⟩ := List.forall_mem_cons.1 hall
      rw [List.map_cons, List.nodup_cons] at hnodup
      rw [List.map_cons, List.sum_cons] at hsum
      have hbytes : found.bytes + f.size ≤ maxBytes := by omega
      refine ⟨found.add f, checkFile_ok_iff.2 ⟨htake, hnew, hbytes, hsmall, rfl⟩, ?_⟩
      refine (foldlM_ok_iff (show (found.add f).bytes ≤ maxBytes from hbytes)).2 ⟨⟨fun g hg => ?_, hnodup.2, ?_⟩, rfl⟩
      · obtain ⟨htake, hnot, hsmall⟩ := hrest g hg
        refine ⟨htake, fun h => ?_, hsmall⟩
        rcases List.mem_cons.1 h with heq | h
        · exact hnodup.1 (heq ▸ List.mem_map_of_mem hg)
        · exact hnot h
      · show found.bytes + f.size + (files.map (·.size)).sum ≤ maxBytes
        omega

theorem insertAll_spec (g : ℕ → String) : ∀ (ns : List ℕ) (l : List String), l.Nodup →
    (ns.foldl (fun l n => l.insert (g n)) l).Nodup ∧
      ∀ x, x ∈ ns.foldl (fun l n => l.insert (g n)) l ↔ x ∈ l ∨ x ∈ ns.map g
  | [], l, h => ⟨h, fun x => by simp⟩
  | n :: ns, l, h => by
    obtain ⟨hnodup, hmem⟩ := insertAll_spec g ns (l.insert (g n)) (h.insert)
    refine ⟨hnodup, fun x => ?_⟩
    rw [List.foldl_cons, hmem, List.mem_insert_iff, List.map_cons, List.mem_cons]
    tauto

theorem foldl_add : ∀ (files : List SkillFile) (found : SkillImport.Found), found.directories.Nodup →
    (∀ x, x ∈ (files.foldl Found.add found).paths ↔ x ∈ found.paths ∨ x ∈ files.map (·.path)) ∧
    (files.foldl Found.add found).paths.length = found.paths.length + files.length ∧
    (files.foldl Found.add found).directories.Nodup ∧
    ∀ x, x ∈ (files.foldl Found.add found).directories ↔
      x ∈ found.directories ∨ x ∈ files.flatMap fun f => ancestors f.path
  | [], found, h => ⟨by simp, by simp, h, by simp⟩
  | f :: files, found, h => by
    obtain ⟨hnodup, hmem⟩ := insertAll_spec (fun n => joinParts ((pathParts f.path).take n))
      (List.range' 1 ((pathParts f.path).length - 1)) found.directories h
    obtain ⟨hpaths, hlen, hdirs, hdirectories⟩ := foldl_add files (found.add f) hnodup
    refine ⟨fun x => ?_, ?_, hdirs, fun x => ?_⟩
    · rw [List.foldl_cons, hpaths, List.map_cons, List.mem_cons]
      show x ∈ f.path :: found.paths ∨ _ ↔ _
      rw [List.mem_cons]
      tauto
    · rw [List.foldl_cons, hlen]
      show (f.path :: found.paths).length + files.length = _
      rw [List.length_cons, List.length_cons]
      omega
    · rw [List.foldl_cons, hdirectories, List.flatMap_cons, List.mem_append]
      show x ∈ (found.add f).directories ∨ _ ↔ _
      rw [show x ∈ (found.add f).directories ↔ x ∈ found.directories ∨ x ∈ ancestors f.path from hmem x]
      tauto

/-- The client accepts what is within the limits. -/
theorem validateSkillFiles_iff : validateSkillFiles files = .ok () ↔ Acceptable files := by
  obtain ⟨hpaths, hlen, hnodup, hdirectories⟩ := foldl_add files {} .nil
  have hmem (x : String) : x ∈ (files.foldl Found.add {}).directories ↔ x ∈ folders files := by
    rw [hdirectories, folders, List.mem_dedup]
    simp
  have hcount : (files.foldl Found.add {}).directories.length = (folders files).length :=
    ((List.perm_ext_iff_of_nodup hnodup (List.nodup_dedup _)).2 hmem).length_eq
  have hpath (x : String) : x ∈ (files.foldl Found.add {}).paths ↔ x ∈ files.map (·.path) := by
    rw [hpaths]
    simp
  have hnum : (files.foldl Found.add {}).paths.length = files.length := by
    rw [hlen]
    simp
  have hfold {found : SkillImport.Found} := @foldlM_ok_iff files {} found (Nat.zero_le _)
  simp only [validateSkillFiles, Fallible.bind_eq_ok, Fallible.bailIf_eq_ok, hfold]
  constructor
  · rintro ⟨-, hentries, found, ⟨⟨hall, hdistinct, hsum⟩, rfl⟩, -, hmarkdown, hclash⟩
    rw [hpath, not_not] at hmarkdown
    rw [hnum, hcount] at hclash
    refine ⟨fun h => hentries (.inl h), by omega, fun f hf => (hall f hf).1, hdistinct, by simpa using hsum,
      hmarkdown, fun f hf => (hall f hf).2.2, by omega, fun p hp hin => hclash (.inr ⟨p, ?_, ?_⟩)⟩
    · exact (hmem p).2 hp
    · exact (hpath p).2 hin
  · intro h
    refine ⟨(), not_or.2 ⟨h.some, not_lt.2 h.few⟩, _, ⟨⟨fun f hf => ⟨h.paths f hf, List.not_mem_nil, h.small f hf⟩,
      h.distinct, by simpa using h.bytes⟩, rfl⟩, (), ?_, ?_⟩
    · rw [hpath, not_not]
      exact h.markdown
    · rw [hnum, hcount, not_or, not_lt]
      refine ⟨h.entries, ?_⟩
      rintro ⟨p, hp, hin⟩
      exact h.apart p ((hmem p).1 hp) ((hpath p).1 hin)

end limits

section staging

/-! A system whose calls go well. -/

variable {os : Os} {w : Skills.World} {path p : Path} {node : Node} {base f f' : Files}

theorem ask_ok (hos : ∀ n, os.allowed n = true) {e : Skills.Fault} {Q : Unit → Skills.World → Prop}
    {E : Skills.Fault → Skills.World → Prop} (hQ : Q () { w with calls := w.calls + 1 }) :
    wp (Skills.ask os e) Q E w := by
  simp only [Skills.ask, wp_bind, wp_current, wp_update, wp_bailIf, hos]
  exact ⟨fun h => absurd h (by simp), fun _ => hQ⟩

theorem place_ok (hos : ∀ n, os.allowed n = true) (hne : path ≠ [])
    (hparent : w.files.isFolder path.dropLast = true) (hfree : w.files.node path = none)
    {Q : Unit → Skills.World → Prop} {E : Skills.Fault → Skills.World → Prop}
    (hQ : ∀ files, w.files.insert path node = some files →
      Q () { w with calls := w.calls + 1, files := files }) : wp (Skills.place os path node) Q E w := by
  unfold Skills.place
  refine wp_bind.2 (ask_ok hos ?_)
  simp only [wp_bind, wp_current, wp_orError, wp_update]
  refine ⟨hQ, fun hnone => ?_⟩
  unfold PathTree.insert at hnone
  rw [dif_pos ⟨hne, hparent, hfree⟩] at hnone
  cases hnone

theorem wp_forEach_append {α σ ε : Type} {g : α → Prog σ ε Unit} {Q : Unit → σ → Prop} {E : ε → σ → Prop}
    {l : List α} : ∀ {front : List α} {s : σ}, wp (forEach g (front ++ l)) Q E s ↔
      wp (forEach g front) (fun _ => wp (forEach g l) Q E) E s
  | [], s => Iff.rfl
  | a :: front, s => by
    rw [List.cons_append, forEach, forEach, wp_bind, wp_bind]
    constructor
    · exact fun h => wp_mono h (fun _ _ h => wp_forEach_append.1 h) fun _ _ h => h
    · exact fun h => wp_mono h (fun _ _ h => wp_forEach_append.2 h) fun _ _ h => h

/-- The directories on a path are there, and nothing else is new. -/
structure Grown (source q : Path) (f f' : Files) : Prop where
  folder : f'.isFolder (source ++ q) = true
  node : ∀ p, f'.node p = f.node p ∨ f.node p = none ∧ f'.node p = some (.dir true) ∧
    ∃ r, r ≠ [] ∧ r <+: q ∧ p = source ++ r

/-- Directories can be made where no file is in the way. -/
theorem createDirAll_ok (hos : ∀ n, os.allowed n = true) {source : Path} {E : Skills.Fault → Skills.World → Prop}
    (hsource : w.files.isFolder source = true) (q : Path)
    (hway : ∀ r v, r ≠ [] → r <+: q → w.files.node (source ++ r) = some v → v.isDir = true) :
    wp (Skills.createDirAll os (source ++ q)) (fun _ w' => Grown source q w.files w'.files) E w := by
  unfold Skills.createDirAll
  induction q using List.reverseRecOn with
  | nil =>
    rw [List.append_nil]
    refine wp_mono (wp_forEach (I := fun rest w' => w' = w ∧ ∀ p ∈ rest, w.files.isFolder p = true)
      (fun p rest w' hw => ?_) source.inits w ⟨rfl, fun p hp => ?_⟩) (fun _ w' hw => ?_) fun _ _ h => h
    · obtain ⟨rfl, hfolders⟩ := hw
      refine wp_bind.2 (wp_current.2 ?_)
      have hfolder := hfolders p List.mem_cons_self
      rw [when, if_neg (by simp [hfolder])]
      exact ⟨rfl, fun r hr => hfolders r (List.mem_cons_of_mem p hr)⟩
    · exact isFolder_above hsource ((List.mem_inits _ _).1 hp)
    · obtain ⟨rfl, -⟩ := hw
      exact ⟨by rwa [List.append_nil], fun _ => .inl rfl⟩
  | append_singleton q a ih =>
    rw [← List.append_assoc, List.inits_append, wp_forEach_append]
    have hpre : q <+: q ++ [a] := List.prefix_append q [a]
    refine wp_mono (ih fun r v hr hrq => hway r v hr (hrq.trans hpre)) (fun _ w₁ hgrown => ?_) fun _ _ h => h
    have hlast : (List.map (source ++ q ++ ·) (List.inits [a]).tail) = [source ++ q ++ [a]] := rfl
    rw [hlast]
    refine wp_bind.2 (wp_bind.2 (wp_current.2 ?_))
    have hkeep (hfolder : w₁.files.isFolder (source ++ q ++ [a]) = true) :
        Grown source (q ++ [a]) w.files w₁.files := by
      refine ⟨by rwa [← List.append_assoc], fun p => ?_⟩
      rcases hgrown.node p with hsame | ⟨hnone, hdir, r, hr, hrq, hp⟩
      · exact .inl hsame
      · exact .inr ⟨hnone, hdir, r, hr, hrq.trans hpre, hp⟩
    by_cases hfolder : w₁.files.isFolder (source ++ q ++ [a]) = false
    · rw [when, if_pos hfolder]
      have hfree : w₁.files.node (source ++ q ++ [a]) = none ∧ w.files.node (source ++ q ++ [a]) = none := by
        rcases hgrown.node (source ++ q ++ [a]) with hsame | ⟨-, hdir, -⟩
        · rcases hnode : w.files.node (source ++ q ++ [a]) with _ | v
          · exact ⟨hsame.trans hnode, rfl⟩
          · have hdir := hway (q ++ [a]) v (by simp) List.prefix_rfl (by rwa [← List.append_assoc])
            rw [isFolder, hsame, hnode, Option.any_some, hdir] at hfolder
            cases hfolder
        · rw [isFolder, hdir] at hfolder
          cases hfolder
      refine place_ok hos (by simp) (by rw [List.dropLast_concat]; exact hgrown.folder) hfree.1 fun files hins => ?_
      refine ⟨?_, fun p => ?_⟩
      · rw [← List.append_assoc, isFolder, node_insert hins, if_pos rfl]
        rfl
      · rw [node_insert hins]
        split_ifs with hp
        · rw [hp]
          exact .inr ⟨hfree.2, rfl, q ++ [a], by simp, List.prefix_rfl, by rw [List.append_assoc]⟩
        · rcases hgrown.node p with hsame | ⟨hnone, hdir, r, hr, hrq, hpr⟩
          · exact .inl hsame
          · exact .inr ⟨hnone, hdir, r, hr, hrq.trans hpre, hpr⟩
    · rw [when, if_neg hfolder]
      exact hkeep (by simpa using hfolder)

/-- What is not in a directory of a stage is left as it is, and nothing is added. -/
structure Kept (parent : Path) (front : String) (base f : Files) : Prop where
  node : ∀ p, (∀ name : String, front.toList <+: name.toList → ¬parent ++ [name] <+: p) →
    f.node p = base.node p
  free : ∀ p, base.node p = none → f.node p = none

variable {parent : Path} {front : String}

theorem Kept.folder (h : Kept parent front base f) (hparent : base.isFolder parent = true) :
    f.isFolder parent = true := by
  rw [isFolder, h.node, ← isFolder, hparent]
  intro name _ hpre
  have := hpre.length_le
  simp at this

theorem Kept.remove {name : String} (h : Kept parent front base f) (hname : front.toList <+: name.toList) :
    Kept parent front base (f.remove (parent ++ [name])) where
  node p hp := by
    rw [node_remove, if_neg (hp name hname), h.node p hp]
  free p hp := by
    rw [node_remove, h.free p hp, ite_self]

theorem recover_ok (hos : ∀ n, os.allowed n = true) {E : Skills.Fault → Skills.World → Prop} :
    ∀ (names : List String) (n : ℕ) (w : Skills.World), Kept parent front base w.files →
      wp (Skills.recover os parent front names n) (fun _ w' => Kept parent front base w'.files) E w
  | [], _, _, hw => hw
  | name :: rest, n, w, hw => by
    refine wp_bind.2 (ask_ok hos (wp_bind.2 (wp_current.2 ?_)))
    dsimp only
    by_cases hstage : Skills.stageName front name = true ∧
      w.files.isFolder (parent ++ [name]) = true ∧ Skills.marked w.files (parent ++ [name]) = true ∧
        os.locked (w.calls + 1) (parent ++ [name]) = false
    · rw [if_pos hstage]
      have hfront : front.toList <+: name.toList := by
        have hname := hstage.1
        simp only [Skills.stageName, Bool.and_eq_true, decide_eq_true_eq] at hname
        exact hname.1.1
      refine wp_bind.2 (wp_bind.2 (ask_ok hos (wp_update.2 ?_)))
      split_ifs
      · exact hw.remove hfront
      · exact recover_ok hos rest _ _ (hw.remove hfront)
    · rw [if_neg hstage]
      exact recover_ok hos rest _ _ hw

/-- A new stage has its lease, and nothing else. -/
theorem newStaging_ok (hos : ∀ n, os.allowed n = true) {E : Skills.Fault → Skills.World → Prop}
    (hparent : w.files.isFolder parent = true)
    (hfree : ∀ n, w.files.node (parent ++ [front ++ os.suffix n]) = none) :
    wp (Skills.newStaging os parent front) (fun staging w' =>
      (∃ suffix, staging = parent ++ [front ++ suffix]) ∧ w'.files.isFolder staging = true ∧
      (∀ r v, r ≠ [] → w'.files.node (staging ++ r) = some v → r = [Skills.lease]) ∧
      ∀ p, (∀ name : String, front.toList <+: name.toList → ¬parent ++ [name] <+: p) →
        w'.files.node p = w.files.node p) E w := by
  unfold Skills.newStaging
  refine wp_bind.2 (ask_ok hos (wp_bind.2 ?_))
  unfold Skills.readDir
  refine wp_bind.2 (ask_ok hos (wp_bind.2 (wp_current.2 (wp_bind.2 (wp_bailIf.2 ⟨fun h => ?_, fun _ => ?_⟩)))))
  · rw [hparent] at h
    cases h
  have hstart : Kept parent front w.files w.files := ⟨fun _ _ => rfl, fun _ h => h⟩
  refine wp_pure.2 (wp_bind.2 (wp_mono (recover_ok hos _ _ _ hstart) (fun _ w₁ hkept => ?_) fun _ _ h => h))
  refine wp_bind.2 (ask_ok hos (wp_bind.2 (wp_current.2 (wp_bind.2 ?_))))
  dsimp only
  set staging := parent ++ [front ++ os.suffix (w₁.calls + 1)] with hstaging
  have hnone : w₁.files.node staging = none := hkept.free _ (hfree _)
  have hunder : w₁.files.isFolder staging = false := by
    rw [isFolder, hnone]
    rfl
  refine place_ok (w := { w₁ with calls := w₁.calls + 1 }) hos (by simp [hstaging]) ?_ hnone fun files hins => ?_
  · rw [hstaging, List.dropLast_concat]
    exact hkept.folder hparent
  have hfolder : files.isFolder staging = true := by
    rw [isFolder, node_insert hins, if_pos rfl]
    rfl
  have hbelow {r : Path} (hr : r ≠ []) : Below staging (staging ++ r) :=
    ⟨List.prefix_append _ _, fun h => hr (List.self_eq_append_right.1 h)⟩
  have hlease : files.node (staging ++ [Skills.lease]) = none := by
    rw [node_insert hins, if_neg (by simp), node_below hunder (hbelow (by simp))]
  refine wp_bind.2 (wp_rescue.2 (wp_bind.2 (place_ok hos (by simp) (by rwa [List.dropLast_concat]) hlease
    fun files' hins' => ask_ok hos ?_)))
  refine wp_pure.2 ⟨⟨_, rfl⟩, ?_, fun r v hr hv => ?_, fun p hp => ?_⟩
  · rw [isFolder, node_insert hins', if_neg (by simp), ← isFolder, hfolder]
  · by_contra hne
    rw [node_insert hins', if_neg (by simpa using hne), node_insert hins, if_neg (by simpa using hr),
      node_below hunder (hbelow hr)] at hv
    cases hv
  · have hname : front.toList <+: (front ++ os.suffix (w₁.calls + 1)).toList := by
      rw [String.toList_append]
      exact List.prefix_append _ _
    have hout : ¬staging <+: p := hp _ hname
    rw [node_insert hins', if_neg, node_insert hins, if_neg, hkept.node p hp]
    · rintro rfl
      exact hout List.prefix_rfl
    · rintro rfl
      exact hout (List.prefix_append _ _)

/-- A directory has the files of a manifest so far, and the directories that lead to them, and nothing
else. -/
structure Exact (source : Path) (base : Files) (done : List SkillImportFile) (f : Files) : Prop where
  outside : ∀ p, ¬source <+: p → f.node p = base.node p
  folder : f.isFolder source = true
  known : ∀ r v, r ≠ [] → f.node (source ++ r) = some v → ∃ item ∈ done,
    r <+: pathParts item.path ∧ (r ≠ pathParts item.path → v.isDir = true)

theorem stageFile_ok (hos : ∀ n, os.allowed n = true) {source : Path} {done : List SkillImportFile}
    {item : SkillImportFile} {bytes : List UInt8} {mode total : ℕ} {E : Skills.Fault → Skills.World → Prop}
    (hw : Exact source base done w.files) (hvalid : Valid uploads item)
    (hout : ¬source <+: absolute item.attachment)
    (hupload : base.node (absolute item.attachment) = some (.file bytes mode))
    (hsize : total + bytes.length ≤ maxBytes) (hmarkdown : item.path = "SKILL.md" → bytes.length ≤ 65536)
    (hapart : ∀ other ∈ done, Apart other item) :
    wp (Skills.stageFile os source total item) (fun total' w' => total' = total + bytes.length ∧
      Exact source base (done ++ [item]) w'.files) E w := by
  unfold Skills.stageFile
  refine wp_bind.2 (ask_ok hos (wp_bind.2 (ask_ok hos (wp_bind.2 (wp_current.2 ?_)))))
  dsimp only
  rw [hw.outside _ hout, hupload]
  unfold maxBytes at hsize
  have hmin : min (total + bytes.length) (2 ^ 64 - 1) = total + bytes.length := by
    omega
  dsimp only
  rw [hmin]
  refine wp_bind.2 (wp_bailIf.2 ⟨?_, fun _ => ?_⟩)
  · rintro (hlarge | ⟨hname, hlarge⟩)
    · omega
    · have := hmarkdown hname
      omega
  rw [hvalid.join]
  have hne := Skills.pathParts_ne_nil item.path
  have hlast : (source ++ pathParts item.path).dropLast = source ++ (pathParts item.path).dropLast :=
    List.dropLast_append_of_ne_nil hne
  rw [hlast]
  have hproper {r : Path} (hr : r <+: (pathParts item.path).dropLast) : r ≠ pathParts item.path := by
    rintro rfl
    have hlen := hr.length_le
    have hpos := List.length_pos_of_ne_nil hne
    rw [List.length_dropLast] at hlen
    omega
  refine wp_bind.2 (wp_rescue.2 (wp_mono (createDirAll_ok (w := { w with calls := w.calls + 1 + 1 })
    (E := fun _ _ => False) hos hw.folder _ fun r v hr hpre hv => ?_) (fun _ w₁ hgrown => ?_)
    fun _ _ h => h.elim))
  · obtain ⟨other, hother, hlead, hdir⟩ := hw.known r v hr hv
    refine hdir fun heq => (hapart other hother).1 ?_
    rw [← heq]
    exact hpre.trans (List.dropLast_prefix _)
  · have hfree : w₁.files.node (source ++ pathParts item.path) = none := by
      rcases hgrown.node (source ++ pathParts item.path) with hsame | ⟨-, -, r, -, hpre, heq⟩
      · rw [hsame]
        by_contra hsome
        obtain ⟨v, hv⟩ := Option.ne_none_iff_exists'.1 hsome
        obtain ⟨other, hother, hlead, -⟩ := hw.known _ v hne hv
        exact (hapart other hother).2 hlead
      · exact absurd (List.append_cancel_left heq).symm (hproper hpre)
    refine wp_bind.2 (wp_rescue.2 (place_ok hos (by simp [hne]) (by rw [hlast]; exact hgrown.folder) hfree
      fun files hins => ?_))
    refine wp_bind.2 (ask_ok hos (wp_bind.2 (ask_ok hos (wp_pure.2 ⟨rfl, fun p hp => ?_, ?_, fun r v hr hv => ?_⟩))))
    · rw [node_insert hins, if_neg]
      · rcases hgrown.node p with hsame | ⟨-, -, r, -, -, rfl⟩
        · rw [hsame, hw.outside p hp]
        · exact absurd (List.prefix_append _ _) hp
      · rintro rfl
        exact hp (List.prefix_append _ _)
    · have hfolder : w₁.files.isFolder source = true :=
        isFolder_above hgrown.folder (List.prefix_append _ _)
      rwa [isFolder, node_insert hins, if_neg (by simpa using hne.symm), ← isFolder]
    · have hmem : item ∈ done ++ [item] := List.mem_append_right _ List.mem_cons_self
      rw [node_insert hins] at hv
      split_ifs at hv with heq
      · obtain rfl := List.append_cancel_left heq
        exact ⟨item, hmem, List.prefix_rfl, fun h => absurd rfl h⟩
      · rcases hgrown.node (source ++ r) with hsame | ⟨-, hdir, r', -, hpre, hr'⟩
        · rw [hsame] at hv
          obtain ⟨other, hother, hlead⟩ := hw.known r v hr hv
          exact ⟨other, List.mem_append_left _ hother, hlead⟩
        · obtain rfl := List.append_cancel_left hr'
          refine ⟨item, hmem, hpre.trans (List.dropLast_prefix _), fun _ => ?_⟩
          rw [hdir] at hv
          obtain rfl := Option.some.inj hv
          rfl

theorem stageFiles_ok (hos : ∀ n, os.allowed n = true) {source : Path} {E : Skills.Fault → Skills.World → Prop} :
    ∀ {files : List SkillFile} {rest done : List SkillImportFile} {total : ℕ} {w : Skills.World},
      List.Forall₂ (Uploaded uploads base) files rest → Exact source base done w.files →
      (done ++ rest).Pairwise Apart → total + (files.map (·.size)).sum ≤ maxBytes →
      (∀ f ∈ files, f.path = "SKILL.md" → f.size ≤ 65536) →
      (∀ item ∈ rest, Valid uploads item ∧ ¬source <+: absolute item.attachment) →
      wp (Skills.stageFiles os source total rest) (fun _ _ => True) E w
  | [], _, _, _, _, h, _, _, _, _, _ => by
    obtain rfl := List.forall₂_nil_left_iff.1 h
    trivial
  | f :: files, _, done, total, w, h, hw, hapart, hsum, hmarkdown, hall => by
    obtain ⟨item, rest, hf, hrest, rfl⟩ := List.forall₂_cons_left_iff.1 h
    obtain ⟨hpath, -, bytes, mode, hupload, hlen⟩ := hf
    obtain ⟨hvalid, hout⟩ := hall item List.mem_cons_self
    rw [List.map_cons, List.sum_cons] at hsum
    have hsize : total + bytes.length ≤ maxBytes := by omega
    have hname (hn : item.path = "SKILL.md") : bytes.length ≤ 65536 := by
      rw [hlen]
      exact hmarkdown f List.mem_cons_self (hpath ▸ hn)
    have hbefore : ∀ other ∈ done, Apart other item := fun other hother =>
      (List.pairwise_append.1 hapart).2.2 other hother item List.mem_cons_self
    refine wp_bind.2 (wp_mono (stageFile_ok hos hw hvalid hout hupload hsize hname hbefore)
      (fun total' w' hw' => ?_) fun _ _ h => h)
    obtain ⟨rfl, hexact⟩ := hw'
    refine stageFiles_ok hos hrest hexact (by rwa [List.append_assoc, List.singleton_append]) (by omega)
      (fun g hg => hmarkdown g (List.mem_cons_of_mem f hg)) fun i hi => hall i (List.mem_cons_of_mem item hi)

end staging

section imports

variable {os : Os} {k : Skills} {name : String} {w : Skills.World} {E : Skills.Fault → Skills.World → Prop}

/-- An upload is in the directory of the uploads. -/
theorem attachment_eq {attachment : String} (h : isCompleted uploads attachment = true) :
    ∃ last, absolute attachment = uploads ++ [last] := by
  simp only [isCompleted, Bool.and_eq_true] at h
  split at h
  · rename_i last hlast
    simp only [Bool.and_eq_true, decide_eq_true_eq] at h
    obtain ⟨r, hr⟩ := List.getLast?_eq_some_iff.1 hlast
    rw [hr, List.dropLast_concat] at h
    exact ⟨last, by rw [hr, h.2.1.1.1]⟩
  · cases h.2

theorem attachment_apart {attachment stage : String} (h : isCompleted k.uploads attachment = true)
    (hstage : "skill-upload-".toList <+: stage.toList) : ¬k.directory ++ [stage] <+: absolute attachment := by
  intro hpre
  obtain ⟨last, hlast⟩ := attachment_eq h
  rw [hlast, Skills.uploads] at hpre
  obtain rfl := child_unique hpre (List.prefix_append _ _)
  revert hstage
  decide

/-- What is sent, and a system that can take it. -/
structure Ready (os : Os) (k : Skills) (name : String) (files : List SkillFile)
    (items : List SkillImportFile) (w : Skills.World) : Prop where
  allowed : ∀ n, os.allowed n = true
  named : Skills.component name = true
  uploaded : List.Forall₂ (Uploaded k.uploads w.files) files items
  free : ∀ n, w.files.node (k.directory ++ ["skill-upload-" ++ os.suffix n]) = none

/-- `import_files` up to the installation. -/
def upToInstall (os : Os) (k : Skills) (name : String) (items : List SkillImportFile) : Op Unit := do
  let staging ← k.accept os name items
  Skills.stage os (staging ++ [name]) items

theorem Ready.folder (h : Ready os k name files items w) (hne : items ≠ []) :
    w.files.isFolder k.uploads = true := by
  obtain ⟨item, items, rfl⟩ := List.exists_cons_of_ne_nil hne
  obtain ⟨f, files, hf, -, rfl⟩ := List.forall₂_cons_right_iff.1 h.uploaded
  obtain ⟨-, hcompleted, bytes, mode, hnode, -⟩ := hf
  obtain ⟨last, hlast⟩ := attachment_eq hcompleted
  rw [hlast] at hnode
  exact isFolder_of_below (List.cons_ne_nil last []) (by rw [hnode]; rfl)

theorem accept_ok (h : Ready os k name files items w) (hne : items ≠ []) (hfew : items.length ≤ 512)
    (hchecked : Skills.checkFiles k.uploads items = .ok ()) :
    wp (k.accept os name items) (fun staging w' =>
      (∃ suffix, staging = k.directory ++ ["skill-upload-" ++ suffix]) ∧ w'.files.isFolder staging = true ∧
      (∀ r v, r ≠ [] → w'.files.node (staging ++ r) = some v → r = [Skills.lease]) ∧
      ∀ p, (∀ name : String, "skill-upload-".toList <+: name.toList → ¬k.directory ++ [name] <+: p) →
        w'.files.node p = w.files.node p) E w := by
  have hfolder := h.folder hne
  unfold Skills.accept
  refine wp_bind.2 (ask_ok h.allowed (wp_bind.2 (wp_bailIf.2 ⟨fun hbad => ?_, fun _ => ?_⟩)))
  · rw [h.named] at hbad
    cases hbad
  refine wp_bind.2 (wp_bailIf.2 ⟨fun hnone => absurd hnone hne, fun _ => ?_⟩)
  refine wp_bind.2 (wp_bailIf.2 ⟨fun hmany => absurd hmany (by omega), fun _ => ?_⟩)
  have hdirs := createDirAll_ok (w := { w with calls := w.calls + 1 }) (E := fun _ _ => False) h.allowed hfolder []
    fun r v hr hpre => absurd (List.prefix_nil.1 hpre) hr
  rw [List.append_nil] at hdirs
  refine wp_bind.2 (wp_mono hdirs (fun _ w₁ hgrown => ?_) fun _ _ h => h.elim)
  have hnode (p : Path) : w₁.files.node p = w.files.node p := by
    rcases hgrown.node p with hsame | ⟨-, -, r, hr, hpre, -⟩
    · exact hsame
    · exact absurd (List.prefix_nil.1 hpre) hr
  have hfolder₁ : w₁.files.isFolder k.uploads = true := by
    rw [isFolder, hnode, ← isFolder, hfolder]
  refine wp_bind.2 (ask_ok h.allowed (wp_bind.2 (wp_current.2 (wp_bind.2 (wp_bailIf.2 ⟨fun hno => ?_, fun _ => ?_⟩)))))
  · rw [hfolder₁] at hno
    cases hno
  refine wp_bind.2 (wp_lift.2 ⟨fun _ _ => ?_, fun e he => ?_⟩)
  · refine wp_mono (newStaging_ok (w := { w₁ with calls := w₁.calls + 1 }) h.allowed
      (isFolder_above hfolder₁ (List.prefix_append _ _)) fun n => ?_) (fun staging w₂ hstaging => ?_) fun _ _ h => h
    · rw [hnode]
      exact h.free n
    · obtain ⟨hname, hthere, hknown, hkept⟩ := hstaging
      exact ⟨hname, hthere, hknown, fun p hp => (hkept p hp).trans (hnode p)⟩
  · rw [hchecked] at he
    cases he

/-- What the client accepts is staged, when the paths are plain. -/
theorem upToInstall_ok (h : Ready os k name files items w) (hplain : ∀ f ∈ files, Plain f.path)
    (hvalid : validateSkillFiles files = .ok ()) : ((upToInstall os k name items).run w).1 = .ok () := by
  obtain ⟨hne, hfew, hchecked⟩ := checkFiles_server h.uploaded hplain hvalid
  obtain ⟨hsum, hmarkdown⟩ := validateSkillFiles_sizes hvalid
  obtain ⟨found, -, hfound⟩ := Skills.checkFiles_found hchecked
  have hall : wp (upToInstall os k name items) (fun _ _ => True) (fun _ _ => False) w := by
    refine wp_bind.2 (wp_mono (accept_ok h hne hfew hchecked) ?_ fun _ _ h => h)
    rintro _ w₁ ⟨⟨suffix, rfl⟩, hfolder, hknown, hkept⟩
    have hstage : "skill-upload-".toList <+: ("skill-upload-" ++ suffix).toList := by
      rw [String.toList_append]
      exact List.prefix_append _ _
    have hlease : name ≠ Skills.lease := by
      rintro rfl
      have hnamed := h.named
      revert hnamed
      decide
    set source := k.directory ++ ["skill-upload-" ++ suffix] ++ [name] with hsource
    have hnone : w₁.files.node source = none := by
      by_contra hsome
      obtain ⟨v, hv⟩ := Option.ne_none_iff_exists'.1 hsome
      exact hlease (List.singleton_inj.1 (hknown [name] v (by simp) hv))
    have hunder : w₁.files.isFolder source = false := by
      rw [isFolder, hnone]
      rfl
    refine wp_bind.2 (place_ok h.allowed (by simp [hsource]) (by rwa [hsource, List.dropLast_concat]) hnone
      fun files₂ hins => ?_)
    have huploaded : List.Forall₂ (Uploaded k.uploads w₁.files) files items := by
      refine h.uploaded.imp fun f item hf => ?_
      obtain ⟨hpath, hcompleted, bytes, mode, hnode, hlen⟩ := hf
      refine ⟨hpath, hcompleted, bytes, mode, ?_, hlen⟩
      rw [hkept _ fun n hn => attachment_apart hcompleted hn, hnode]
    have hexact : Exact source w₁.files [] files₂ := by
      refine ⟨fun p hp => ?_, ?_, fun r v hr hv => ?_⟩
      · rw [node_insert hins, if_neg]
        rintro rfl
        exact hp List.prefix_rfl
      · rw [isFolder, node_insert hins, if_pos rfl]
        rfl
      · have hbelow : Below source (source ++ r) :=
          ⟨List.prefix_append _ _, fun heq => hr (List.self_eq_append_right.1 heq)⟩
        rw [node_insert hins, if_neg hbelow.2.symm, node_below hunder hbelow] at hv
        cases hv
    refine stageFiles_ok h.allowed huploaded hexact (checkFiles_apart hchecked) (by rwa [Nat.zero_add])
      hmarkdown fun item hitem => ⟨(hfound item hitem).1, fun hpre => ?_⟩
    exact attachment_apart (hfound item hitem).1.completed hstage ((List.prefix_append _ _).trans hpre)
  unfold wp at hall
  unfold Prog.run
  revert hall
  rcases upToInstall os k name items w with ⟨e | u, t⟩
  · exact False.elim
  · exact fun _ => rfl

/-- What the server's checks have seen of what it accepts. -/
theorem accept_checked : Gives (fun _ => True) (k.accept os name items) fun _ =>
    items ≠ [] ∧ items.length ≤ 512 ∧ Skills.checkFiles k.uploads items = .ok () := by
  intro w _
  unfold Skills.accept
  have hskip {α β : Type} {m : Op α} {g : α → Op β} {Q : β → Skills.World → Prop} {w : Skills.World}
      (hg : ∀ a w, wp (g a) Q (fun _ _ => True) w) : wp (m >>= g) Q (fun _ _ => True) w := by
    refine wp_bind.2 ?_
    unfold wp
    rcases m w with ⟨e | a, t⟩
    · trivial
    · exact hg a t
  refine hskip fun _ w => hskip fun _ w => wp_bind.2 (wp_bailIf.2 ⟨fun _ => trivial, fun hne => ?_⟩)
  refine wp_bind.2 (wp_bailIf.2 ⟨fun _ => trivial, fun hfew => ?_⟩)
  refine hskip fun _ w => hskip fun _ w => hskip fun _ w => hskip fun _ w => ?_
  refine wp_bind.2 (wp_lift.2 ⟨fun _ hchecked => ?_, fun _ _ => trivial⟩)
  refine wp_mono (Gives.any (Skills.newStaging os k.directory "skill-upload-") w trivial) (fun _ _ _ => ?_)
    fun _ _ h => h
  exact ⟨⟨hne, not_lt.1 hfew, hchecked⟩, trivial⟩

/-- What the server accepts has plain paths, and the client refuses it for its size at most. -/
theorem accept_client (hpaths : items.map (·.path) = files.map (·.path)) {staging : Path}
    (h : ((k.accept os name items).run w).1 = .ok staging) :
    (validateSkillFiles files = .ok () ∨ validateSkillFiles files = .error .bytes) ∧
      ∀ f ∈ files, Plain f.path := by
  obtain ⟨hne, hfew, hchecked⟩ := accept_checked.value trivial h
  refine ⟨validateSkillFiles_client hpaths hne hfew hchecked, fun f hf => ?_⟩
  obtain ⟨found, -, hfound⟩ := Skills.checkFiles_found hchecked
  have hmem : f.path ∈ items.map (·.path) := hpaths ▸ List.mem_map_of_mem hf
  obtain ⟨item, hitem, hpath⟩ := List.mem_map.1 hmem
  rw [← hpath]
  by_contra hbad
  obtain ⟨part, hpart, hrefused⟩ := List.any_eq_true.1 ((any_badPart item.path).2 (.inr hbad))
  rw [(hfound item hitem).1.parts part hpart] at hrefused
  cases hrefused

theorem bind_error {σ ε α β : Type} {m : Prog σ ε β} {g : β → Prog σ ε α} {s t : σ} {e : ε}
    (h : m.run s = (.error e, t)) : (m >>= g) s = (.error e, t) := by
  have hm : m s = (.error e, t) := h
  simp only [bind, hm]

def quietOs : Os where
  allowed _ := true
  suffix _ := "aaaaaa"
  locked _ _ := false
  order _ names := names
  order_perm _ names := .refl names

def homeOnly : Skills where
  directory := ["srv"]
  home := ["home"]
  apart := by decide

def uploadName : String := "00000000-0000-0000-0000-000000000000-skill-file"

/-- A disk with one upload, of an empty file. -/
def oneUpload : Files where
  entries := [([], .dir true), (["srv"], .dir true), (["srv", "paste-tmp"], .dir true),
    (["srv", "paste-tmp", uploadName], .file [] 0o100600)]
  nodup := by decide +kernel
  closed p n v h := by
    simp only [List.mem_cons, Prod.mk.injEq, List.not_mem_nil, or_false] at h
    rcases h with ⟨hp, -⟩ | ⟨hp, -⟩ | ⟨hp, -⟩ | ⟨hp, -⟩
    · exact absurd hp (by simp)
    · obtain ⟨rfl, -⟩ := List.append_inj' (show p ++ [n] = [] ++ ["srv"] from hp) rfl
      exact ⟨.dir true, by simp, rfl⟩
    · obtain ⟨rfl, -⟩ := List.append_inj' (show p ++ [n] = ["srv"] ++ ["paste-tmp"] from hp) rfl
      exact ⟨.dir true, by simp, rfl⟩
    · obtain ⟨rfl, -⟩ := List.append_inj' (show p ++ [n] = ["srv", "paste-tmp"] ++ [uploadName] from hp) rfl
      exact ⟨.dir true, by simp, rfl⟩

/-- A skill with one more file, both empty. -/
def withFile (path : String) : List SkillFile := [⟨"SKILL.md", 0⟩, ⟨path, 0⟩]

end imports

end SkillImport

end LatteWork
