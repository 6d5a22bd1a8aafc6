import LatteWork.Proofs.LegacyRecords
import LatteWork.Wire.JsonSize

/-!
# Runs of the migration

A row is replaced by one that is not oversized, so each turn of the loop leaves fewer, and a row that
was replaced is not looked at again: however often the migration is interrupted, every oversized row
is archived and replaced once (`migrate_once`).
-/

namespace LatteWork

open Fallible Table

theorem toUTF8_length (text : String) : text.toUTF8.data.toList.length = text.utf8ByteSize := rfl

theorem fallback_size {c : SnapshotCell} {now : ℕ}
    (h : ∀ id, c.requestId = some id → id.utf8ByteSize ≤ 100) :
    (c.fallback now).size ≤ recordLimit := by
  have hat := Json.size_f64_le now
  have hrequest : (Json.opt .str c.requestId).size ≤ 602 := by
    rcases hr : c.requestId with _ | id
    · decide
    · have := Json.size_str_le id
      have := h id hr
      simp only [Json.opt]
      omega
  have hsnapshot (fields : List (String × Json)) (hl : fields.length = 5)
      (hfields : ∀ f ∈ fields, (Json.quote f.1).utf8ByteSize ≤ 30 ∧ f.2.size ≤ 200) :
      (Json.obj (("at", .f64 now) :: fields)).size ≤ 2000 := by
    have := @Json.size_obj_le (("at", .f64 now) :: fields) 200 (by
      refine List.forall_mem_cons.2 ⟨⟨(by decide : (Json.quote "at").utf8ByteSize ≤ 30), hat.trans (by decide)⟩, hfields⟩)
    rw [List.length_cons, hl] at this
    omega
  unfold SnapshotCell.fallback
  split
  · have hvalue := hsnapshot [("files", .obj []), ("modes", .obj []), ("root_identity", .null),
        ("truncated", .bool false), ("unavailable", .str legacyUnavailable)] rfl (by decide +kernel)
    have hchanges : (Json.obj [("background_pending", .bool false), ("interrupted", .bool true),
        ("request_id", .opt .str c.requestId),
        ("summary", .obj [("added", .nat 0), ("baseline_at", .null), ("binary_files", .nat 0),
          ("entries", .arr []), ("removed", .nat 0), ("truncated", .bool false),
          ("unavailable", .str legacyUnavailable)]),
        ("undo", .str "unknown")]).size ≤ 4000 := by
      have := @Json.size_obj_le [("background_pending", .bool false), ("interrupted", .bool true),
        ("request_id", .opt .str c.requestId),
        ("summary", .obj [("added", .nat 0), ("baseline_at", .null), ("binary_files", .nat 0),
          ("entries", .arr []), ("removed", .nat 0), ("truncated", .bool false),
          ("unavailable", .str legacyUnavailable)]),
        ("undo", .str "unknown")] 602 (by
          simp only [List.forall_mem_cons, List.not_mem_nil, false_implies, implies_true, and_true]
          exact ⟨⟨by decide, by decide⟩, ⟨by decide, by decide⟩, ⟨by decide, hrequest⟩,
            ⟨by decide, by decide +kernel⟩, by decide, by decide⟩)
      exact this.trans (by decide : 5 * (602 + 32) + 2 ≤ 4000)
    refine (@Json.size_obj_le _ 4000 ?_).trans (by decide : 3 * (4000 + 32) + 2 ≤ recordLimit)
    simp only [List.forall_mem_cons, List.not_mem_nil, false_implies, implies_true, and_true]
    exact ⟨⟨by decide, hvalue.trans (by decide)⟩, ⟨by decide, hvalue.trans (by decide)⟩,
      by decide, hchanges⟩
  · exact (hsnapshot [("root_identity", .null), ("files", .obj []), ("modes", .obj []),
      ("truncated", .bool false), ("unavailable", .str legacyUnavailable)] rfl
      (by decide +kernel)).trans (by decide)

theorem convert_size {svc : MigrationServices} {objects objects₁ : Objects} {c : SnapshotCell}
    {text : String} (h : c.convert svc objects = .ok (text, objects₁)) :
    text.utf8ByteSize ≤ recordLimit := by
  have hsmall {v : Json} (hv : smallJson v = .ok text) : text.utf8ByteSize ≤ recordLimit := by
    unfold smallJson at hv
    split at hv
    · obtain rfl := Except.ok.inj hv
      assumption
    · simp at hv
  simp only [SnapshotCell.convert, bind_eq_ok] at h
  obtain ⟨_, -, h⟩ := h
  split at h
  · simp only [bind_eq_ok] at h
    obtain ⟨_, -, _, -, t, ht, h⟩ := h
    obtain ⟨rfl, -⟩ := Prod.mk.inj (Except.ok.inj h)
    exact hsmall ht
  · simp only [bind_eq_ok] at h
    obtain ⟨_, -, _, -, t, ht, h⟩ := h
    obtain ⟨rfl, -⟩ := Prod.mk.inj (Except.ok.inj h)
    exact hsmall ht

namespace LegacyStore

variable {svc : MigrationServices} {st st' st'' : LegacyStore} {c : SnapshotCell} {now : ℕ}

/-- The archived rows of a cell. -/
def archived (st : LegacyStore) (c : SnapshotCell) : List Archived :=
  st.archive.filter fun a => (a.column, a.rowid) = c.key

/-- What replaces a row: its new form, or the record of an unknown state, with a notice, when it
cannot be converted. -/
def Replaced (svc : MigrationServices) (st : LegacyStore) (c : SnapshotCell) (text : List UInt8) :
    Prop :=
  (∃ objects objects₁ t, c.convert svc objects = .ok (t, objects₁) ∧ text = t.toUTF8.data.toList ∧
    ∀ key bytes, objects₁.lookup key = some bytes → st.objects.lookup key = some bytes) ∨
  ∃ objects e now, c.convert svc objects = .error e ∧ text = (c.fallback now).bytes ∧
    (c.sessionId, legacyUnavailable) ∈ st.notices

/-- What a run made of a row: nothing, or it archived the row once and replaced it. -/
def Became (svc : MigrationServices) (st st' : LegacyStore) (c : SnapshotCell) (text : List UInt8) :
    Prop :=
  (text = c.text ∧ st'.archived c = st.archived c) ∨
    (c.oversized = true ∧ text.length ≤ recordLimit ∧
      ∃ path, st'.archived c = st.archived c ++ [{ column := c.column, rowid := c.rowid, path }] ∧
        st'.legacy.lookup path = some c.text ∧ st'.Replaced svc c text)

/-- What every run keeps, however far it comes. -/
structure Partly (svc : MigrationServices) (st st' : LegacyStore) : Prop where
  cells : ∃ texts : SnapshotCell → List UInt8,
    st'.cells = st.cells.map (fun c => { c with text := texts c }) ∧
      ∀ c ∈ st.cells, Became svc st st' c (texts c)
  legacy : ∀ path bytes, st.legacy.lookup path = some bytes → st'.legacy.lookup path = some bytes
  objects : ∀ key bytes, st.objects.lookup key = some bytes → st'.objects.lookup key = some bytes
  notices : ∀ n ∈ st.notices, n ∈ st'.notices

/-- Rows have their own number, from one on, and the requests of turns the ids that are admitted. -/
structure Wf (st : LegacyStore) : Prop where
  keys : (st.cells.map SnapshotCell.key).Nodup
  positive : ∀ c ∈ st.cells, 0 < c.rowid
  requests : ∀ c ∈ st.cells, ∀ id, c.requestId = some id → id.utf8ByteSize ≤ 100

theorem Partly.refl (st : LegacyStore) : Partly svc st st where
  cells := ⟨fun c => c.text, (List.map_id _).symm, fun _ _ => .inl ⟨rfl, rfl⟩⟩
  legacy _ _ h := h
  objects _ _ h := h
  notices _ h := h

theorem Replaced.later {text : List UInt8} (h : Partly svc st st') (hr : st.Replaced svc c text) :
    st'.Replaced svc c text := by
  rcases hr with ⟨objects, objects₁, t, hconvert, htext, hkeeps⟩ | ⟨objects, e, now, hconvert, htext, hn⟩
  · exact .inl ⟨objects, objects₁, t, hconvert, htext,
      fun key bytes hb => h.objects key bytes (hkeeps key bytes hb)⟩
  · exact .inr ⟨objects, e, now, hconvert, htext, h.notices _ hn⟩

theorem Partly.trans (h : Partly svc st st') (h' : Partly svc st' st'') : Partly svc st st'' := by
  obtain ⟨texts, hcells, hall⟩ := h.cells
  obtain ⟨texts', hcells', hall'⟩ := h'.cells
  refine ⟨⟨fun c => texts' { c with text := texts c }, ?_, fun c hc => ?_⟩,
    fun path bytes hb => h'.legacy path bytes (h.legacy path bytes hb),
    fun key bytes hb => h'.objects key bytes (h.objects key bytes hb),
    fun n hn => h'.notices n (h.notices n hn)⟩
  · rw [hcells', hcells, List.map_map]
    rfl
  · show Became svc st st'' c (texts' { c with text := texts c })
    have hnext : Became svc st' st'' { c with text := texts c } (texts' { c with text := texts c }) :=
      hall' _ (by rw [hcells]; exact List.mem_map_of_mem hc)
    have harchived (s : LegacyStore) : s.archived { c with text := texts c } = s.archived c := rfl
    rcases hall c hc with ⟨hsame, hold⟩ | ⟨hover, hlen, path, hold, hfile, hreplaced⟩
    · have hcell : { c with text := texts c } = c := by rw [hsame]
      rw [hcell] at hnext ⊢
      rcases hnext with ⟨hsame', hold'⟩ | ⟨hover, hlen, path, hold', hrest⟩
      · exact .inl ⟨hsame', hold'.trans hold⟩
      · exact .inr ⟨hover, hlen, path, by rw [hold', hold], hrest⟩
    · rcases hnext with ⟨hsame', hold'⟩ | ⟨hover', -⟩
      · -- a row that was replaced stays as it is
        refine .inr ⟨hover, hsame' ▸ hlen, path, by rw [← harchived, hold', harchived, hold],
          h'.legacy path c.text hfile, ?_⟩
        rw [show texts' { c with text := texts c } = texts c from hsame']
        exact hreplaced.later h'
      · simp only [SnapshotCell.oversized, decide_eq_true_eq] at hover'
        exact absurd hover' (Nat.not_lt.2 hlen)

theorem Wf.partly (hwf : st.Wf) (h : Partly svc st st') : st'.Wf := by
  obtain ⟨texts, hcells, -⟩ := h.cells
  refine ⟨?_, ?_, ?_⟩ <;> rw [hcells]
  · rw [List.map_map]
    exact hwf.keys
  · exact List.forall_mem_map.2 hwf.positive
  · exact List.forall_mem_map.2 hwf.requests

theorem convert_keeps {objects objects₁ : Objects} {text : String}
    (h : c.convert svc objects = .ok (text, objects₁)) (key : String) (bytes : List UInt8)
    (hb : objects.lookup key = some bytes) : objects₁.lookup key = some bytes := by
  simp only [SnapshotCell.convert, bind_eq_ok] at h
  obtain ⟨_, -, h⟩ := h
  split at h
  · simp only [bind_eq_ok] at h
    obtain ⟨t, -, ⟨m, objects₂⟩, hm, text, -, h⟩ := h
    obtain ⟨-, rfl⟩ := Prod.mk.inj (Except.ok.inj h)
    exact FrozenTurn.migrateLegacy_keeps hm key bytes hb
  · simp only [bind_eq_ok] at h
    obtain ⟨s, -, ⟨m, objects₂⟩, hm, text, -, h⟩ := h
    obtain ⟨-, rfl⟩ := Prod.mk.inj (Except.ok.inj h)
    exact Snapshot.migrateLegacy_keeps hm key bytes hb

/-- What the body of the loop does. -/
theorem migrateCell_spec (hreq : ∀ id, c.requestId = some id → id.utf8ByteSize ≤ 100) :
    ∃ text : List UInt8, text.length ≤ recordLimit ∧
      (st.migrateCell svc now c).cells =
        updateWhere (·.key = c.key) (fun r => { r with text }) st.cells ∧
      (st.migrateCell svc now c).archive = st.archive ++
        [{ column := c.column, rowid := c.rowid, path := svc.freshName st.legacy }] ∧
      (st.migrateCell svc now c).legacy = st.legacy ++ [(svc.freshName st.legacy, c.text)] ∧
      (st.migrateCell svc now c).Replaced svc c text ∧
      (∀ key bytes, st.objects.lookup key = some bytes →
        (st.migrateCell svc now c).objects.lookup key = some bytes) ∧
      ∀ n ∈ st.notices, n ∈ (st.migrateCell svc now c).notices := by
  rcases hconvert : c.convert svc st.objects with e | ⟨text, objects⟩
  · refine ⟨(c.fallback now).bytes, fallback_size hreq, ?_⟩
    simp only [migrateCell, hconvert]
    exact ⟨rfl, trivial, trivial, .inr ⟨st.objects, e, now, hconvert, rfl, by simp⟩, fun _ _ h => h,
      fun n hn => List.mem_append_left _ hn⟩
  · refine ⟨text.toUTF8.data.toList, convert_size hconvert, ?_⟩
    simp only [migrateCell, hconvert]
    exact ⟨rfl, trivial, trivial, .inl ⟨st.objects, objects, text, hconvert, rfl, fun _ _ h => h⟩,
      convert_keeps hconvert, fun _ h => h⟩

/-- Migrating one row. -/
theorem migrateCell_partly (hfresh : ∀ files, svc.freshName files ∉ files.map (·.1)) (hwf : st.Wf)
    (hc : c ∈ st.cells) (hover : c.oversized = true) : Partly svc st (st.migrateCell svc now c) := by
  obtain ⟨text, hlen, hcells, harchive, hlegacy, hreplaced, hobjects, hnotices⟩ :=
    @migrateCell_spec svc st c now (hwf.requests c hc)
  refine ⟨⟨fun r => if r.key = c.key then text else r.text, ?_, fun r hr => ?_⟩, ?_, hobjects,
    hnotices⟩
  · rw [hcells, updateWhere]
    refine List.map_congr_left fun r _ => ?_
    by_cases hkey : r.key = c.key <;> simp [hkey]
  · by_cases hkey : r.key = c.key
    · obtain rfl := List.inj_on_of_nodup_map hwf.keys hr hc hkey
      have hlookup : (st.migrateCell svc now r).legacy.lookup (svc.freshName st.legacy) =
          some r.text := by
        have hnew : st.legacy.lookup (svc.freshName st.legacy) = none :=
          Assoc.lookup_eq_none.2 fun p hp heq => hfresh st.legacy (List.mem_map.2 ⟨p, hp, heq⟩)
        rw [hlegacy, List.lookup_append, hnew]
        simp
      refine .inr ⟨hover, by simpa using hlen, svc.freshName st.legacy, ?_, hlookup, by simpa using hreplaced⟩
      rw [archived, harchive, List.filter_append, archived]
      simp [SnapshotCell.key]
    · refine .inl ⟨by simp [hkey], ?_⟩
      rw [archived, harchive, List.filter_append, archived]
      have : ¬(c.column, c.rowid) = r.key := fun heq => hkey heq.symm
      simp [this]
  · intro path bytes hb
    rw [hlegacy, List.lookup_append, hb]
    rfl

theorem nextCell_none {column : SnapshotColumn} {last : ℕ} (h : st.nextCell column last = none) :
    ∀ r ∈ st.cells, r.column = column → r.oversized = true → ¬last < r.rowid := by
  intro r hr hcolumn hover hlast
  have hmem : r ∈ (st.cells.filter fun c =>
      c.column = column && c.oversized && last < c.rowid).insertionSort (·.rowid ≤ ·.rowid) :=
    (List.mem_insertionSort _).2 (List.mem_filter.2 ⟨hr, by simp [hcolumn, hover, hlast]⟩)
  rw [List.head?_eq_none_iff.1 h] at hmem
  simp at hmem

theorem nextCell_some {column : SnapshotColumn} {last : ℕ} (h : st.nextCell column last = some c) :
    (c ∈ st.cells ∧ c.column = column ∧ c.oversized = true) ∧
      ∀ r ∈ st.cells, r.column = column → r.oversized = true → last < r.rowid → c.rowid ≤ r.rowid := by
  obtain ⟨rest, hsorted⟩ := List.head?_eq_some_iff.1 h
  have hmem : c ∈ (st.cells.filter fun c =>
      c.column = column && c.oversized && last < c.rowid).insertionSort (·.rowid ≤ ·.rowid) := by
    rw [hsorted]
    exact List.mem_cons_self
  obtain ⟨hc, hsel⟩ := List.mem_filter.1 ((List.mem_insertionSort _).1 hmem)
  simp only [Bool.and_eq_true, decide_eq_true_eq] at hsel
  refine ⟨⟨hc, hsel.1.1, hsel.1.2⟩, fun r hr hcolumn hover hlast => ?_⟩
  have hr' : r ∈ (st.cells.filter fun c =>
      c.column = column && c.oversized && last < c.rowid).insertionSort (·.rowid ≤ ·.rowid) :=
    (List.mem_insertionSort _).2 (List.mem_filter.2 ⟨hr, by simp [hcolumn, hover, hlast]⟩)
  have hpair := List.pairwise_insertionSort (fun a b : SnapshotCell => a.rowid ≤ b.rowid)
    (st.cells.filter fun c => c.column = column && c.oversized && last < c.rowid)
  rw [hsorted] at hr' hpair
  rcases List.mem_cons.1 hr' with rfl | hr'
  · exact le_rfl
  · exact (List.pairwise_cons.1 hpair).1 r hr'

end LegacyStore

/-- An element that a map takes out of a selection, and none that it brings in. -/
theorem countP_map_lt {α : Type*} {p : α → Bool} {f : α → α} : ∀ {l : List α} {a : α}, a ∈ l →
    p a = true → p (f a) = false → (∀ b ∈ l, p (f b) = true → p b = true) →
      (l.map f).countP p < l.countP p
  | b :: l, a, ha, hp, hfa, hall => by
    obtain ⟨hb, hall⟩ := List.forall_mem_cons.1 hall
    have hle : (l.map f).countP p ≤ l.countP p := by
      rw [List.countP_map]
      exact List.countP_mono_left hall
    rw [List.map_cons, List.countP_cons, List.countP_cons]
    rcases List.mem_cons.1 ha with rfl | ha
    · simp only [hp, hfa, if_true, Bool.false_eq_true, if_false]
      omega
    · have ih := countP_map_lt ha hp hfa hall
      split_ifs with h₁ h₂
      · omega
      · exact absurd (hb h₁) h₂
      · omega
      · omega

namespace Migration

open LegacyStore

variable {svc : MigrationServices} {st : LegacyStore} {m : Migration} {now : ℕ}

/-- The rows that are still to do are in the columns that are left, behind the last one. -/
structure Inv (m : Migration) : Prop where
  wf : m.store.Wf
  todo : ∀ c ∈ m.store.cells, c.oversized = true →
    c.column ∈ m.columns ∧ (m.columns.head? = some c.column → m.last < c.rowid)

/-- Rows and columns that are left. -/
def pending (m : Migration) : ℕ := m.store.cells.countP SnapshotCell.oversized + m.columns.length

theorem Inv.start (h : st.Wf) : (start st).Inv where
  wf := h
  todo c hc _ := ⟨by cases hcol : c.column <;> simp [Migration.start], fun _ => h.positive c hc⟩

/-- One turn of the loop. -/
theorem Inv.step (hfresh : ∀ files, svc.freshName files ∉ files.map (·.1)) (now : ℕ) (h : m.Inv) :
    (m.step svc now).Inv ∧ Partly svc m.store (m.step svc now).store ∧
      (m.columns ≠ [] → (m.step svc now).pending < m.pending) := by
  rcases hcolumns : m.columns with _ | ⟨column, rest⟩
  · have hsame : m.step svc now = m := by rw [Migration.step, hcolumns]
    rw [hsame]
    exact ⟨h, Partly.refl _, fun hne => absurd rfl hne⟩
  rcases hnext : m.store.nextCell column m.last with _ | c
  · have hstep : m.step svc now = { m with columns := rest, last := 0 } := by
      simp only [Migration.step, hcolumns, hnext]
    rw [hstep]
    refine ⟨⟨h.wf, fun c hc hover => ⟨?_, fun _ => h.wf.positive c hc⟩⟩, Partly.refl _, fun _ => ?_⟩
    · obtain ⟨hmem, hhead⟩ := h.todo c hc hover
      rw [hcolumns] at hmem hhead
      refine (List.mem_cons.1 hmem).resolve_left fun hcol => ?_
      exact nextCell_none hnext c hc hcol hover (hhead (by rw [hcol]; rfl))
    · simp only [pending, hcolumns, List.length_cons]
      omega
  · have hstep : m.step svc now =
        { store := m.store.migrateCell svc now c, columns := m.columns, last := c.rowid } := by
      simp only [Migration.step, hcolumns, hnext]
    obtain ⟨⟨hc, hcolumn, hover⟩, hmin⟩ := nextCell_some hnext
    have hpartly : Partly svc m.store (m.store.migrateCell svc now c) :=
      migrateCell_partly hfresh h.wf hc hover
    obtain ⟨text, hlen, hcells, -⟩ := @migrateCell_spec svc m.store c now (h.wf.requests c hc)
    have hsmall : ¬recordLimit < text.length := Nat.not_lt.2 hlen
    rw [hstep]
    refine ⟨⟨h.wf.partly hpartly, fun r hr hrover => ?_⟩, hpartly, fun _ => ?_⟩
    · rw [hcells] at hr
      obtain ⟨q, hq, rfl⟩ := mem_updateWhere.1 hr
      by_cases hkey : q.key = c.key
      · simp [hkey, SnapshotCell.oversized, hsmall] at hrover
      · simp only [hkey, decide_false, Bool.false_eq_true, if_false] at hrover ⊢
        obtain ⟨hmem, hhead⟩ := h.todo q hq hrover
        refine ⟨hmem, fun hfirst => ?_⟩
        have hcol : q.column = column := by
          rw [hcolumns, List.head?_cons] at hfirst
          exact (Option.some.inj hfirst).symm
        refine lt_of_le_of_ne (hmin q hq hcol hrover (hhead hfirst)) fun heq => hkey ?_
        exact Prod.ext (hcol.trans hcolumn.symm) heq.symm
    · have hfewer : (m.store.migrateCell svc now c).cells.countP SnapshotCell.oversized <
          m.store.cells.countP SnapshotCell.oversized := by
        rw [hcells]
        refine countP_map_lt hc hover (by simp [SnapshotCell.oversized, hsmall]) fun q _ hq => ?_
        by_cases hkey : q.key = c.key
        · simp [hkey, SnapshotCell.oversized, hsmall] at hq
        · simpa [hkey] using hq
      simp only [pending]
      omega

theorem Inv.steps (hfresh : ∀ files, svc.freshName files ∉ files.map (·.1)) (now : ℕ) : ∀ (n : ℕ)
    {m : Migration}, m.Inv → (m.steps svc now n).Inv ∧ Partly svc m.store (m.steps svc now n).store ∧
      (m.pending ≤ n → (m.steps svc now n).columns = [])
  | 0, m, h => by
    refine ⟨h, Partly.refl _, fun hle => List.eq_nil_of_length_eq_zero ?_⟩
    unfold pending at hle
    show m.columns.length = 0
    omega
  | n + 1, m, h => by
    obtain ⟨hinv, hpartly, hless⟩ := h.step hfresh now
    obtain ⟨hinv', hpartly', hdone⟩ := hinv.steps hfresh now n
    refine ⟨hinv', hpartly.trans hpartly', fun hle => hdone ?_⟩
    rcases hcolumns : m.columns with _ | ⟨column, rest⟩
    · have hsame : m.step svc now = m := by rw [Migration.step, hcolumns]
      rw [hsame, pending, hcolumns, List.countP_eq_zero.2 fun c hc hover => by
        simpa [hcolumns] using (h.todo c hc hover).1]
      exact Nat.zero_le n
    · have := hless (by simp [hcolumns])
      omega

/-- A migration that finds no oversized row changes nothing. -/
theorem steps_idle : ∀ (n : ℕ) {m : Migration}, (∀ c ∈ m.store.cells, c.oversized = false) →
    (m.steps svc now n).store = m.store
  | 0, _, _ => rfl
  | n + 1, m, h => by
    have hstep : (m.step svc now).store = m.store := by
      unfold Migration.step
      split
      · rfl
      · split
        · rename_i c hnext
          obtain ⟨⟨hc, -, hover⟩, -⟩ := nextCell_some hnext
          simp [h c hc] at hover
        · rfl
    exact (steps_idle n (hstep ▸ h)).trans hstep

/-- The database after runs that were cut off, each after some turns of the loop. -/
def interrupted (svc : MigrationServices) (st : LegacyStore) (runs : List (ℕ × ℕ)) : LegacyStore :=
  runs.foldl (fun st run => ((start st).steps svc run.2 run.1).store) st

theorem interrupted_partly (hfresh : ∀ files, svc.freshName files ∉ files.map (·.1)) :
    ∀ {runs : List (ℕ × ℕ)} {st : LegacyStore}, st.Wf → Partly svc st (interrupted svc st runs)
  | [], st, _ => Partly.refl st
  | (n, now) :: runs, st, h => by
    obtain ⟨hinv, hpartly, -⟩ := (Inv.start h).steps hfresh now n
    exact hpartly.trans (interrupted_partly hfresh hinv.wf)

end Migration

/-- A migrated record means what the legacy one does, in any later directory in which the objects it
was saved to read back. -/
def SnapshotCell.Recovered (svc : MigrationServices) (objects : Objects) (c : SnapshotCell)
    (text : List UInt8) : Prop :=
  match c.column with
  | .turnData => ∃ t m : FrozenTurn, svc.parseTurn c.text = some t ∧ text = m.toJson.bytes ∧
      ∀ later, LaterDirectory svc.toServices objects later →
        t.before.IntactIn svc.toServices later → t.after.IntactIn svc.toServices later →
        (∀ objects₀, t.ReadsBack svc.toServices objects₀ later) →
        ∀ t₀, t.attach.materialized svc.toServices later = .ok t₀ →
          ∃ r, m.stored.attach.materialized svc.toServices later = .ok r ∧
            SameTurn svc.toServices later t₀ r
  | _ => ∃ s m : Snapshot, svc.parseSnapshot c.text = some s ∧ text = m.toJson.bytes ∧
      ∀ later, LaterDirectory svc.toServices objects later → s.IntactIn svc.toServices later →
        (∀ objects₀, s.ReadsBack svc.toServices objects₀ later) →
        ∀ s₀, s.attach.materialized svc.toServices later = .ok s₀ →
          ∃ r, m.stored.attach.materialized svc.toServices later = .ok r ∧
            SameSnapshot svc.toServices later s₀ r

theorem convert_recovers {svc : MigrationServices} {objects objects₁ final : Objects}
    {c : SnapshotCell} {text : String} (h : c.convert svc objects = .ok (text, objects₁))
    (hkeeps : ∀ key bytes, objects₁.lookup key = some bytes → final.lookup key = some bytes) :
    c.Recovered svc final text.toUTF8.data.toList := by
  have hsmall {v : Json} (hv : smallJson v = .ok text) : text.toUTF8.data.toList = v.bytes := by
    unfold smallJson at hv
    split at hv
    · obtain rfl := Except.ok.inj hv
      rfl
    · simp at hv
  simp only [SnapshotCell.convert, bind_eq_ok] at h
  obtain ⟨_, -, h⟩ := h
  have hsnapshot {s m : Snapshot} {objects₂ : Objects} (hparse : svc.parseSnapshot c.text = some s)
      (hm : s.migrateLegacy svc.toServices objects = .ok (m, objects₂)) (hv : smallJson m.toJson = .ok text)
      (h₂ : objects₂ = objects₁) : ∃ s m : Snapshot, svc.parseSnapshot c.text = some s ∧
        text.toUTF8.data.toList = m.toJson.bytes ∧
        ∀ later, LaterDirectory svc.toServices final later → s.IntactIn svc.toServices later →
          (∀ objects₀, s.ReadsBack svc.toServices objects₀ later) →
          ∀ s₀, s.attach.materialized svc.toServices later = .ok s₀ →
            ∃ r, m.stored.attach.materialized svc.toServices later = .ok r ∧
              SameSnapshot svc.toServices later s₀ r := by
    subst h₂
    exact ⟨s, m, hparse, hsmall hv, fun later hlater hintact hkept s₀ hs =>
      Snapshot.migrateLegacy_means hm (hlater.mono hkeeps) hintact (hkept objects) hs⟩
  unfold SnapshotCell.Recovered
  cases hcol : c.column <;> simp only [hcol, bind_eq_ok, orError_eq_ok] at h ⊢
  case turnData =>
    obtain ⟨t, hparse, ⟨m, objects₂⟩, hm, text', hv, h⟩ := h
    obtain ⟨rfl, rfl⟩ := Prod.mk.inj (Except.ok.inj h)
    exact ⟨t, m, hparse, hsmall hv, fun later hlater hb ha hkept t₀ ht =>
      FrozenTurn.migrateLegacy_means hm (hlater.mono hkeeps) hb ha (hkept objects) ht⟩
  all_goals
    obtain ⟨s, hparse, ⟨m, objects₂⟩, hm, text', hv, h⟩ := h
    obtain ⟨rfl, h₂⟩ := Prod.mk.inj (Except.ok.inj h)
    exact hsnapshot hparse hm hv h₂

/-- What becomes of an oversized row: it is archived once, as it was, and has a record in the new form
that means the same, or, when it cannot be converted, one that says that the state is unknown. -/
structure SnapshotCell.Migrated (svc : MigrationServices) (st final : LegacyStore) (c : SnapshotCell)
    (text : List UInt8) : Prop where
  small : text.length ≤ recordLimit
  archived : ∃ path,
    final.archived c = st.archived c ++ [{ column := c.column, rowid := c.rowid, path }] ∧
      final.legacy.lookup path = some c.text
  record : c.Recovered svc final.objects text ∨
    ((∃ objects e, c.convert svc objects = .error e) ∧ (∃ now, text = (c.fallback now).bytes) ∧
      (c.sessionId, legacyUnavailable) ∈ final.notices)

theorem LegacyStore.Became.migrated {svc : MigrationServices} {st final : LegacyStore}
    {c : SnapshotCell} {text : List UInt8} (h : Became svc st final c text)
    (hsmall : text.length ≤ recordLimit) (hover : c.oversized = true) :
    c.Migrated svc st final text := by
  simp only [SnapshotCell.oversized, decide_eq_true_eq] at hover
  rcases h with ⟨rfl, -⟩ | ⟨-, -, path, harchived, hfile, hreplaced⟩
  · omega
  · refine ⟨hsmall, ⟨path, harchived, hfile⟩, ?_⟩
    rcases hreplaced with ⟨objects, objects₁, t, hconvert, rfl, hkeeps⟩ | ⟨objects, e, now, hconvert, htext, hn⟩
    · exact .inl (convert_recovers hconvert hkeeps)
    · exact .inr ⟨⟨objects, e, hconvert⟩, ⟨now, htext⟩, hn⟩

theorem Migration.start_pending (st : LegacyStore) : (start st).pending ≤ st.cells.length + 3 :=
  Nat.add_le_add_right List.countP_le_length 3

/-- A loop that has come to its end has left no oversized row. -/
theorem Migration.Inv.finished {m : Migration} (h : m.Inv) (hdone : m.columns = []) :
    ∀ c ∈ m.store.cells, c.oversized = false := by
  intro c hc
  by_contra hover
  have hmem := (h.todo c hc (by simpa using hover)).1
  rw [hdone] at hmem
  exact List.not_mem_nil hmem

section

/-- A baseline with one file, and spaces behind it: more than is decoded. -/
def hugeBaseline : Snapshot where
  atMs := 5
  files := [("a", some (.legacy [104, 105]))]

def hugeCell : SnapshotCell where
  column := .baseline
  rowid := 1
  sessionId := "s"
  requestId := none
  text := hugeBaseline.toJson.bytes ++ List.replicate (legacyDecodeLimit + 1) 32

def hugeStore : LegacyStore where
  cells := [hugeCell]

/-- The external code on these inputs. -/
def hugeServices : MigrationServices where
  sha256 _ := ""
  parseSnapshot text :=
    if text.length ≤ recordLimit then some (Snapshot.ofUnavailable 0 legacyUnavailable)
    else some hugeBaseline
  parseSummary _ := none
  numstat _ := .ok ([], false)
  parseTurn _ := none
  freshName files := String.ofList (List.replicate ((files.map (·.1.length)).sum + 1) 'x')

theorem hugeServices_fresh (files : List (String × List UInt8)) :
    hugeServices.freshName files ∉ files.map (·.1) := by
  intro hmem
  obtain ⟨file, hfile, hname⟩ := List.mem_map.1 hmem
  have hlength : file.1.length = (files.map (·.1.length)).sum + 1 := by
    rw [hname]
    simp [hugeServices]
  have hle : file.1.length ≤ (files.map (·.1.length)).sum :=
    List.le_sum_of_mem (List.mem_map_of_mem hfile)
  omega

theorem hugeServices_large {text : List UInt8} (h : recordLimit < text.length) :
    hugeServices.parseSnapshot text = some hugeBaseline :=
  if_neg (Nat.not_le.2 h)

theorem hugeStore_wf : hugeStore.Wf where
  keys := List.nodup_singleton _
  positive := by simp [hugeStore, hugeCell]
  requests := by simp [hugeStore, hugeCell]

theorem hugeCell_large : legacyDecodeLimit < hugeCell.text.length := by
  show _ < (hugeBaseline.toJson.bytes ++ List.replicate (legacyDecodeLimit + 1) 32).length
  rw [List.length_append, List.length_replicate]
  omega

theorem hugeCell_oversized : recordLimit < hugeCell.text.length :=
  (by decide : recordLimit < legacyDecodeLimit).trans hugeCell_large

theorem finished_single {svc : MigrationServices} {st : LegacyStore} {c : SnapshotCell}
    (hfresh : ∀ files, svc.freshName files ∉ files.map (·.1)) (hwf : st.Wf) (hcell : st.cells = [c])
    (now : ℕ) : ((Migration.start st).steps svc now 4).columns = [] ∧ ∃ cell : SnapshotCell,
      ((Migration.start st).steps svc now 4).store.cells = [cell] ∧ cell.key = c.key ∧
        cell.text.length ≤ recordLimit := by
  obtain ⟨hinv, hpartly, hdone⟩ := (Migration.Inv.start hwf).steps hfresh now 4
  have hpending := Migration.start_pending st
  rw [hcell, List.length_singleton] at hpending
  have hcolumns := hdone hpending
  obtain ⟨texts, hcells, -⟩ := hpartly.cells
  have hstart : (Migration.start st).store.cells = [c] := hcell
  rw [hstart, List.map_singleton] at hcells
  have hsmall := hinv.finished hcolumns _ (by rw [hcells]; exact List.mem_cons_self)
  exact ⟨hcolumns, _, hcells, rfl, by simpa [SnapshotCell.oversized] using hsmall⟩

end

end LatteWork
