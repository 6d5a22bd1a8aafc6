import LatteWork.Proofs.ChangeLists
import LatteWork.Snapshot.Migration

/-!
# What a migrated record means

The new form of a legacy record reads back as the record: the files of a snapshot have the same
bytes, now in objects, and a turn has the same list (`migrateLegacy_means`,
`FrozenTurn.migrateLegacy_means`).
-/

namespace LatteWork

open Fallible Table

/-- No other bytes with the hash of these lie in their place. -/
def Intact (svc : Services) (objects : Objects) (bytes : List UInt8) : Prop :=
  ∀ found, objects.lookup (svc.sha256 bytes) = some found →
    svc.sha256 found = svc.sha256 bytes → found = bytes

/-- Contents that count as the same, and are read as the same bytes. -/
def SameContents (svc : Services) (objects : Objects) (c d : Contents) : Prop :=
  d.same svc c = true ∧ ∀ bytes, c.load svc objects = .ok bytes → d.load svc objects = .ok bytes

/-- Two paths have the same contents, or none. -/
def SameOption (svc : Services) (objects : Objects) : Option Contents → Option Contents → Prop
  | none, none => True
  | some c, some d => SameContents svc objects c d
  | _, _ => False

/-- Two snapshots say the same. -/
structure SameSnapshot (svc : Services) (objects : Objects) (s r : Snapshot) : Prop where
  paths : r.files.map (·.1) = s.files.map (·.1)
  contents : ∀ path, SameOption svc objects (s.contents path) (r.contents path)
  atMs : r.atMs = s.atMs
  root : r.rootIdentity = s.rootIdentity
  modes : r.modes = s.modes
  truncated : r.truncated = s.truncated
  unavailable : r.unavailable = s.unavailable

section

variable {svc : Services} {objects objects₀ objects₁ : Objects}

theorem Contents.same_refl (c : Contents) : c.same svc c = true := by
  cases c <;> simp [Contents.same, Contents.digest]

theorem SameOption.refl (c : Option Contents) : SameOption svc objects c c := by
  rcases c with _ | c
  · trivial
  · exact ⟨c.same_refl, fun _ h => h⟩

theorem SameSnapshot.refl (s : Snapshot) : SameSnapshot svc objects s s where
  paths := rfl
  contents _ := SameOption.refl _
  atMs := rfl
  root := rfl
  modes := rfl
  truncated := rfl
  unavailable := rfl

theorem migrate_keeps {c d : Contents} (h : c.migrate svc objects₀ = .ok (d, objects₁))
    (key : String) (found : List UInt8) (hfound : objects₀.lookup key = some found) :
    objects₁.lookup key = some found := by
  cases c with
  | legacy bytes =>
    simp only [Contents.migrate, bind_eq_ok] at h
    obtain ⟨⟨o, objects₂⟩, hsave, h⟩ := h
    obtain ⟨-, rfl⟩ := Prod.mk.inj (Except.ok.inj h)
    exact save_keeps hsave key found hfound
  | object o =>
    obtain ⟨-, rfl⟩ := Prod.mk.inj (Except.ok.inj h)
    exact hfound

/-- Migrated contents are read as the bytes they had. -/
theorem migrate_same {c d : Contents} (h : c.migrate svc objects₀ = .ok (d, objects₁))
    (hlater : LaterDirectory svc objects₁ objects)
    (hintact : ∀ bytes, c = .legacy bytes → Intact svc objects bytes) :
    SameContents svc objects c d.attach := by
  cases c with
  | legacy bytes =>
    simp only [Contents.migrate, Objects.save, Object.path, bind_eq_ok, bailIf_eq_ok,
      orError_eq_ok] at h
    obtain ⟨⟨o, objects₂⟩, ⟨_, ⟨_, hkey, _, -, found, hfound, _, hsize, -⟩, hsave⟩, h⟩ := h
    obtain ⟨rfl, rfl⟩ := Prod.mk.inj (Except.ok.inj hsave)
    obtain ⟨rfl, rfl⟩ := Prod.mk.inj (Except.ok.inj h)
    have hthere := hlater.keeps _ _ hfound
    have hsha := hlater.hashed _ _ hthere
    obtain rfl := hintact bytes rfl found hthere hsha
    refine ⟨by simp [Contents.same, Contents.digest, Contents.attach, Object.attach], fun b hb => ?_⟩
    obtain rfl := Except.ok.inj hb
    simp only [Contents.attach, Contents.load, Object.checked, Object.attach, Object.path,
      bind_eq_ok]
    exact ⟨found, ⟨(), bailIf_eq_ok.2 hkey, (), bailIf_eq_ok.2 (by simp), found,
      orError_eq_ok.2 hthere, (), bailIf_eq_ok.2 (by simp), rfl⟩, (), bailIf_eq_ok.2 (by simp), rfl⟩
  | object o =>
    obtain ⟨rfl, rfl⟩ := Prod.mk.inj (Except.ok.inj h)
    refine ⟨by simp [Contents.same, Contents.digest, Contents.attach, Object.attach],
      fun b hb => attach_load (fun _ _ h => h) hb⟩

theorem migrateFiles_keeps : ∀ {files files' : List (String × Option Contents)}
    {objects₀ objects₁ : Objects}, Snapshot.migrateFiles svc objects₀ files = .ok (files', objects₁) →
    ∀ (key : String) (found : List UInt8), objects₀.lookup key = some found →
      objects₁.lookup key = some found
  | [], _, _, _, h, _, _, hfound => by
    obtain ⟨-, rfl⟩ := Prod.mk.inj (Except.ok.inj h)
    exact hfound
  | (path, none) :: rest, _, _, _, h, key, found, hfound => by
    simp only [Snapshot.migrateFiles, bind_eq_ok] at h
    obtain ⟨⟨files, objects₂⟩, hrest, h⟩ := h
    obtain ⟨-, rfl⟩ := Prod.mk.inj (Except.ok.inj h)
    exact migrateFiles_keeps hrest key found hfound
  | (path, some c) :: rest, _, _, _, h, key, found, hfound => by
    simp only [Snapshot.migrateFiles, bind_eq_ok] at h
    obtain ⟨⟨d, objects₂⟩, hc, ⟨files, objects₃⟩, hrest, h⟩ := h
    obtain ⟨-, rfl⟩ := Prod.mk.inj (Except.ok.inj h)
    exact migrateFiles_keeps hrest key found (migrate_keeps hc key found hfound)

/-- The files of a migrated snapshot are the ones it had, with their bytes. -/
theorem migrateFiles_same : ∀ {files files' : List (String × Option Contents)}
    {objects₀ objects₁ : Objects}, Snapshot.migrateFiles svc objects₀ files = .ok (files', objects₁) →
    LaterDirectory svc objects₁ objects →
    (∀ path bytes, (path, some (.legacy bytes)) ∈ files → Intact svc objects bytes) →
    files'.map (·.1) = files.map (·.1) ∧ ∀ path, SameOption svc objects (files.lookup path).join
      ((files'.map fun e => (e.1, e.2.map Contents.attach)).lookup path).join
  | [], _, _, _, h, _, _ => by
    obtain ⟨rfl, -⟩ := Prod.mk.inj (Except.ok.inj h)
    exact ⟨rfl, fun _ => trivial⟩
  | (name, none) :: rest, _, _, _, h, hlater, hintact => by
    simp only [Snapshot.migrateFiles, bind_eq_ok] at h
    obtain ⟨⟨files, objects₂⟩, hrest, h⟩ := h
    obtain ⟨rfl, rfl⟩ := Prod.mk.inj (Except.ok.inj h)
    obtain ⟨hpaths, hsame⟩ := migrateFiles_same hrest hlater fun path bytes hmem =>
      hintact path bytes (List.mem_cons_of_mem _ hmem)
    refine ⟨congrArg (name :: ·) hpaths, fun path => ?_⟩
    rw [List.map_cons, List.lookup_cons, List.lookup_cons]
    cases path == name
    · exact hsame path
    · trivial
  | (name, some c) :: rest, _, _, _, h, hlater, hintact => by
    simp only [Snapshot.migrateFiles, bind_eq_ok] at h
    obtain ⟨⟨d, objects₂⟩, hc, ⟨files, objects₃⟩, hrest, h⟩ := h
    obtain ⟨rfl, rfl⟩ := Prod.mk.inj (Except.ok.inj h)
    obtain ⟨hpaths, hsame⟩ := migrateFiles_same hrest hlater fun path bytes hmem =>
      hintact path bytes (List.mem_cons_of_mem _ hmem)
    refine ⟨congrArg (name :: ·) hpaths, fun path => ?_⟩
    rw [List.map_cons, List.lookup_cons, List.lookup_cons]
    cases path == name
    · exact hsame path
    · refine migrate_same hc (hlater.mono (migrateFiles_keeps hrest)) fun bytes hbytes => ?_
      exact hintact name bytes (by rw [← hbytes]; exact List.mem_cons_self)

namespace Snapshot

theorem migrateLegacy_keeps {s m : Snapshot} (h : s.migrateLegacy svc objects₀ = .ok (m, objects₁))
    (key : String) (found : List UInt8) (hfound : objects₀.lookup key = some found) :
    objects₁.lookup key = some found := by
  simp only [migrateLegacy] at h
  split at h
  · simp only [bind_eq_ok] at h
    obtain ⟨_, -, h⟩ := h
    obtain ⟨-, rfl⟩ := Prod.mk.inj (Except.ok.inj h)
    exact hfound
  · simp only [bind_eq_ok] at h
    obtain ⟨⟨files, objects₂⟩, hfiles, h⟩ := h
    exact persist_keeps h key found (migrateFiles_keeps hfiles key found hfound)

theorem attach_attach (s : Snapshot) : s.attach.attach = s.attach := by
  have hcontents (c : Contents) : c.attach.attach = c.attach := by cases c <;> rfl
  have hfiles : s.attach.attach.files = s.attach.files := by
    simp only [attach, List.map_map]
    refine List.map_congr_left fun file _ => ?_
    rcases file with ⟨path, _ | c⟩
    · rfl
    · exact congrArg (fun c => (path, some c)) (hcontents c)
  have hmanifest : s.attach.attach.manifest = s.attach.manifest := by
    rcases hm : s.manifest with _ | o <;> simp [attach, hm, Object.attach]
  show { s.attach.attach with files := s.attach.attach.files, manifest := s.attach.attach.manifest } =
    s.attach
  rw [hfiles, hmanifest]
  rfl

/-- The inline contents of a snapshot have their hashes for themselves. -/
def IntactIn (svc : Services) (objects : Objects) (s : Snapshot) : Prop :=
  ∀ path bytes, (path, some (.legacy bytes)) ∈ s.files → Intact svc objects bytes

/-- The object that `migrate_legacy` saves of a snapshot reads back. -/
def ReadsBack (svc : Services) (objects₀ objects : Objects) (s : Snapshot) : Prop :=
  ∀ files objects₂, migrateFiles svc objects₀ s.attach.files = .ok (files, objects₂) →
    Kept svc objects svc.parseSnapshot { s.attach with files }.toJson.bytes
      { s.attach with files }.stored

theorem IntactIn.attach {s : Snapshot} (h : IntactIn svc objects s) :
    IntactIn svc objects s.attach := by
  intro path bytes hmem
  obtain ⟨⟨p, c⟩, hold, heq⟩ := List.mem_map.1 hmem
  rcases c with _ | c | o <;> simp only [Prod.mk.injEq, Option.map_none, Option.map_some,
    Contents.attach, Option.some.injEq, Contents.legacy.injEq, reduceCtorEq, and_false] at heq
  obtain ⟨rfl, rfl⟩ := heq
  exact h p c hold

/-- What a migrated snapshot reads back as says what the legacy one says. A parsed record is
`m.stored`. -/
theorem migrateLegacy_means {s m s₀ : Snapshot}
    (h : s.migrateLegacy svc objects₀ = .ok (m, objects₁)) (hlater : LaterDirectory svc objects₁ objects)
    (hintact : s.IntactIn svc objects) (hkept : s.ReadsBack svc objects₀ objects)
    (hs : s.attach.materialized svc objects = .ok s₀) :
    ∃ r, m.stored.attach.materialized svc objects = .ok r ∧ SameSnapshot svc objects s₀ r := by
  rw [stored_attach]
  simp only [migrateLegacy] at h
  split at h
  · simp only [bind_eq_ok] at h
    obtain ⟨_, -, h⟩ := h
    obtain ⟨rfl, -⟩ := Prod.mk.inj (Except.ok.inj h)
    exact ⟨s₀, by rw [attach_attach]; exact hs, SameSnapshot.refl s₀⟩
  · rename_i hnone
    simp only [bind_eq_ok] at h
    obtain ⟨⟨files, objects₂⟩, hfiles, h⟩ := h
    have hmanifest : s.attach.manifest = none := by simpa using hnone
    have hread := persist_reads (s := { s.attach with files }) hmanifest
      (fun _ => hkept files objects₂ hfiles) h hlater
    simp only [materialized, hmanifest] at hs
    obtain rfl := Except.ok.inj hs
    obtain ⟨hpaths, hsame⟩ :=
      migrateFiles_same hfiles (hlater.mono (persist_keeps h)) hintact.attach
    refine ⟨_, hread, ⟨?_, hsame, rfl, rfl, rfl, rfl, rfl⟩⟩
    rw [← hpaths]
    simp [attach, List.map_map, Function.comp_def]

theorem migrateLegacy_attached {s m s₀ : Snapshot}
    (h : s.attach.migrateLegacy svc objects₀ = .ok (m, objects₁))
    (hlater : LaterDirectory svc objects₁ objects) (hintact : s.IntactIn svc objects)
    (hkept : s.attach.ReadsBack svc objects₀ objects)
    (hs : s.attach.materialized svc objects = .ok s₀) :
    ∃ r, m.stored.attach.materialized svc objects = .ok r ∧ SameSnapshot svc objects s₀ r :=
  migrateLegacy_means h hlater hintact.attach hkept (by rw [attach_attach]; exact hs)

end Snapshot

/-- Two lists say the same. -/
structure SameList (a b : ChangeSummary) : Prop where
  entries : b.entries = a.entries
  added : b.added = a.added
  removed : b.removed = a.removed
  binaryFiles : b.binaryFiles = a.binaryFiles
  truncated : b.truncated = a.truncated
  baselineAt : b.baselineAt = a.baselineAt
  unavailable : b.unavailable = a.unavailable

/-- Two turns say the same. -/
structure SameTurn (svc : Services) (objects : Objects) (t r : FrozenTurn) : Prop where
  before : SameSnapshot svc objects t.before r.before
  after : SameSnapshot svc objects t.after r.after
  list : SameList t.changes.summary r.changes.summary
  requestId : r.changes.requestId = t.changes.requestId
  interrupted : r.changes.interrupted = t.changes.interrupted
  backgroundPending : r.changes.backgroundPending = t.changes.backgroundPending
  undo : r.changes.undo = t.changes.undo

/-- A page that is the whole list says what the list says. -/
theorem summaryPage_same {summary page : ChangeSummary} (h : summaryPage summary 0 = .ok page)
    (hlast : page.nextOffset = none) : SameList summary page := by
  obtain ⟨htruncated, hunavailable, hentries⟩ := summaryPage_whole h
  simp only [summaryPage, bind_eq_ok] at h
  obtain ⟨_, -, entries, -, h⟩ := h
  split at h
  · simp only [bind_eq_ok] at h
    obtain ⟨_, -, h⟩ := h
    obtain rfl := Except.ok.inj h
    exact ⟨hentries hlast, rfl, rfl, rfl, htruncated, rfl, hunavailable⟩
  · obtain rfl := Except.ok.inj h
    exact ⟨hentries hlast, rfl, rfl, rfl, htruncated, rfl, hunavailable⟩

namespace FrozenTurn

/-- What a parsed record has of a turn. -/
def stored (t : FrozenTurn) : FrozenTurn :=
  { t with
    fullSummary := t.fullSummary.map fun
      | .object o => .object { o with attached := false }
      | .inline summary => .inline summary
    before := t.before.stored
    after := t.after.stored }

/-- A list that could be read is read from a later directory. -/
theorem full_later {t : FrozenTurn} {full : ChangeSummary}
    (hkeeps : ∀ key bytes, objects₁.lookup key = some bytes → objects.lookup key = some bytes)
    (h : t.full svc objects₁ = .ok full) : t.full svc objects = .ok full := by
  unfold FrozenTurn.full at h ⊢
  rcases hf : t.fullSummary with _ | o | inline <;> simp only [hf] at h ⊢
  · exact h
  · simp only [SummaryData.read, Object.read, Object.path, bind_eq_ok, orError_eq_ok] at h ⊢
    obtain ⟨bytes, ⟨_, hkey, _, hattached, found, hfound, hrest⟩, hparse⟩ := h
    exact ⟨bytes, ⟨(), hkey, (), hattached, found, hkeeps _ _ hfound, hrest⟩, hparse⟩
  · exact h

theorem migrateLegacy_keeps {t m : FrozenTurn} (h : t.migrateLegacy svc objects₀ = .ok (m, objects₁))
    (key : String) (found : List UInt8) (hfound : objects₀.lookup key = some found) :
    objects₁.lookup key = some found := by
  simp only [migrateLegacy, bind_eq_ok] at h
  obtain ⟨⟨before, objects₂⟩, hb, ⟨after, objects₃⟩, ha, full, -, page, -, h⟩ := h
  have hafter := Snapshot.migrateLegacy_keeps ha key found
    (Snapshot.migrateLegacy_keeps hb key found hfound)
  split at h
  · simp only [bind_eq_ok] at h
    obtain ⟨⟨o, objects₄⟩, hsave, h⟩ := h
    obtain ⟨-, rfl⟩ := Prod.mk.inj (Except.ok.inj h)
    exact save_keeps hsave key found hafter
  · obtain ⟨-, rfl⟩ := Prod.mk.inj (Except.ok.inj h)
    exact hafter

/-- The objects that `migrate_legacy` saves of a turn read back. -/
structure ReadsBack (svc : Services) (objects₀ objects : Objects) (t : FrozenTurn) : Prop where
  before : t.before.attach.ReadsBack svc objects₀ objects
  after : ∀ before objects₂, t.before.attach.migrateLegacy svc objects₀ = .ok (before, objects₂) →
    t.after.attach.ReadsBack svc objects₂ objects
  list : ∀ full, t.attach.full svc objects = .ok full →
    Kept svc objects svc.parseSummary full.toJson.bytes full

/-- What a migrated turn reads back as says what the legacy one says. -/
theorem migrateLegacy_means {t m t₀ : FrozenTurn}
    (h : t.migrateLegacy svc objects₀ = .ok (m, objects₁)) (hlater : LaterDirectory svc objects₁ objects)
    (hbefore : t.before.IntactIn svc objects) (hafter : t.after.IntactIn svc objects)
    (hkept : t.ReadsBack svc objects₀ objects) (ht : t.attach.materialized svc objects = .ok t₀) :
    ∃ r, m.stored.attach.materialized svc objects = .ok r ∧ SameTurn svc objects t₀ r := by
  simp only [migrateLegacy, bind_eq_ok] at h
  obtain ⟨⟨before, objects₂⟩, hb, ⟨after, objects₃⟩, ha, full, hfull, page, hpage, h⟩ := h
  simp only [materialized, bind_eq_ok] at ht
  obtain ⟨list, hlist, before₀, hb₀, after₀, ha₀, ht⟩ := ht
  obtain rfl := Except.ok.inj ht
  have hlater₃ : LaterDirectory svc objects₃ objects := by
    split at h
    · simp only [bind_eq_ok] at h
      obtain ⟨⟨o, objects₄⟩, hsave, h⟩ := h
      obtain ⟨-, rfl⟩ := Prod.mk.inj (Except.ok.inj h)
      exact hlater.mono (save_keeps hsave)
    · obtain ⟨-, rfl⟩ := Prod.mk.inj (Except.ok.inj h)
      exact hlater
  obtain rfl := Except.ok.inj ((full_later hlater₃.keeps hfull).symm.trans hlist)
  obtain ⟨rb, hrb, hsb⟩ := Snapshot.migrateLegacy_attached hb
    (hlater₃.mono (Snapshot.migrateLegacy_keeps ha)) hbefore hkept.before hb₀
  obtain ⟨ra, hra, hsa⟩ := Snapshot.migrateLegacy_attached ha hlater₃ hafter
    (hkept.after before objects₂ hb) ha₀
  split at h
  · simp only [bind_eq_ok] at h
    obtain ⟨⟨o, objects₄⟩, hsave, h⟩ := h
    obtain ⟨rfl, rfl⟩ := Prod.mk.inj (Except.ok.inj h)
    have hread : o.attach.read svc objects svc.parseSummary = .ok full :=
      save_reads hsave hlater (hkept.list full hlist)
    refine ⟨{
      fullSummary := some (.object o.attach)
      changes := { t.changes with summary := full }
      before := rb
      after := ra }, ?_, hsb, hsa, ⟨rfl, rfl, rfl, rfl, rfl, rfl, rfl⟩, rfl, rfl, rfl, rfl⟩
    simp only [materialized, bind_eq_ok]
    exact ⟨full, hread, rb, hrb, ra, hra, rfl⟩
  · rename_i hlast
    obtain ⟨rfl, -⟩ := Prod.mk.inj (Except.ok.inj h)
    refine ⟨{
      fullSummary := none
      changes := { t.changes with summary := page }
      before := rb
      after := ra }, ?_, hsb, hsa, summaryPage_same hpage (by simpa using hlast), rfl, rfl, rfl, rfl⟩
    simp only [materialized, bind_eq_ok]
    exact ⟨page, rfl, rb, hrb, ra, hra, rfl⟩

end FrozenTurn

end

end LatteWork
