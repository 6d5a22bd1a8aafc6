import LatteWork.Lib.Assoc
import LatteWork.Lib.Marking
import LatteWork.Snapshot.Garbage
import LatteWork.Store.Turns

/-!
# The collector keeps what the records need

A record needs the objects that materializing it reads: the object with its list of files, the
contents of these files, and the complete change list of a turn. The collector removes the other
object files and nothing else, and every record reads afterwards as it did before.
-/

namespace LatteWork

open Fallible Marking

/-- The objects that materializing a snapshot and loading its files takes. -/
inductive Snapshot.Needs (svc : Services) (objects : Objects) (s : Snapshot) : String → Prop where
  | manifest {o : Object} : s.manifest = some o → s.Needs svc objects o.key
  | contents {loaded : Snapshot} {path : String} {o : Object} :
      s.materialized svc objects = .ok loaded → (path, some (.object o)) ∈ loaded.files →
      s.Needs svc objects o.key

/-- The objects that materializing a frozen turn and loading its files takes. -/
inductive FrozenTurn.Needs (svc : Services) (objects : Objects) (t : FrozenTurn) :
    String → Prop where
  | before {key : String} : t.before.Needs svc objects key → t.Needs svc objects key
  | after {key : String} : t.after.Needs svc objects key → t.Needs svc objects key
  | summary {o : Object} : t.fullSummary = some (.object o) → t.Needs svc objects o.key

namespace SnapshotRows

/-- The objects that the rows need. -/
inductive Needs (svc : Services) (objects : Objects) (rows : SnapshotRows) : String → Prop where
  | baseline {s : Snapshot} {key : String} : some s ∈ rows.taskBaselines →
      s.attach.Needs svc objects key → rows.Needs svc objects key
  | turn {s : Snapshot} {key : String} : some s ∈ rows.turnBaselines →
      s.attach.Needs svc objects key → rows.Needs svc objects key
  | frozen {t : FrozenTurn} {key : String} : some t ∈ rows.frozenTurns →
      t.attach.Needs svc objects key → rows.Needs svc objects key

end SnapshotRows

/-- The list of files of a snapshot can be read. -/
def Snapshot.Readable (svc : Services) (objects : Objects) (s : Snapshot) : Prop :=
  ∃ loaded, s.materialized svc objects = .ok loaded

/-- Every row decodes, and so does every list of files that a row refers to. -/
structure SnapshotRows.Readable (svc : Services) (objects : Objects) (rows : SnapshotRows) :
    Prop where
  baselines : ∀ row ∈ rows.taskBaselines, ∃ s, row = some s ∧ s.attach.Readable svc objects
  turns : ∀ row ∈ rows.turnBaselines, ∃ s, row = some s ∧ s.attach.Readable svc objects
  frozen : ∀ row ∈ rows.frozenTurns, ∃ t, row = some t ∧
    t.attach.before.Readable svc objects ∧ t.attach.after.Readable svc objects

section Mark

variable {svc : Services} {objects : Objects}

theorem mem_insertKeys {k : String} (found : List Object) (keys : List String) :
    k ∈ found.foldl (fun keys o => keys.insert o.key) keys ↔ k ∈ keys ∨ ∃ o ∈ found, o.key = k := by
  induction found generalizing keys with
  | nil => simp
  | cons o rest ih =>
    rw [List.foldl_cons, ih, List.mem_insert_iff, List.exists_mem_cons_iff, eq_comm, or_assoc,
      or_left_comm]

theorem mem_contentObjects {files : List (String × Option Contents)} {o : Object} :
    o ∈ (files.filterMap (·.2)).filterMap Contents.object? ↔
      ∃ path, (path, some (.object o)) ∈ files := by
  simp only [List.mem_filterMap]
  constructor
  · rintro ⟨c, ⟨⟨path, _⟩, hfile, rfl⟩, hc⟩
    cases c with
    | legacy bytes => cases hc
    | object o' =>
      obtain rfl := Option.some.inj hc
      exact ⟨path, hfile⟩
  · rintro ⟨path, hfile⟩
    exact ⟨.object o, ⟨_, hfile, rfl⟩, rfl⟩

theorem snapshot_gathers (s : Snapshot) (keys : List String) :
    Gathers (s.referencedObjects svc objects keys) keys (s.Readable svc objects)
      (s.Needs svc objects) := by
  unfold Snapshot.referencedObjects Snapshot.Readable
  rcases hload : s.materialized svc objects with e | loaded
  · exact .inr ⟨by simp, e, rfl⟩
  · refine .inl ⟨⟨loaded, rfl⟩, _, rfl, fun k => ?_⟩
    rw [mem_insertKeys]
    simp only [mem_contentObjects]
    have hmanifest : k ∈ (s.manifest.elim keys fun manifest => keys.insert manifest.key) ↔
        k ∈ keys ∨ ∃ o, s.manifest = some o ∧ o.key = k := by
      cases s.manifest with
      | none => simp
      | some o => simp [List.mem_insert_iff, or_comm, eq_comm]
    rw [hmanifest, or_assoc]
    refine or_congr_right ⟨?_, ?_⟩
    · rintro (⟨o, ho, rfl⟩ | ⟨o, ⟨path, hfile⟩, rfl⟩)
      · exact .manifest ho
      · exact .contents hload hfile
    · rintro (ho | ⟨hload', hfile⟩)
      · exact .inl ⟨_, ho, rfl⟩
      · obtain rfl := Except.ok.inj (hload.symm.trans hload')
        exact .inr ⟨_, ⟨_, hfile⟩, rfl⟩

theorem frozen_gathers (t : FrozenTurn) (keys : List String) :
    Gathers (t.referencedObjects svc objects keys) keys
      (t.before.Readable svc objects ∧ t.after.Readable svc objects) (t.Needs svc objects) := by
  refine ((snapshot_gathers t.before keys).bind fun keys => (snapshot_gathers t.after keys).bind
    fun keys => show Gathers _ keys True fun k => ∃ o, t.fullSummary = some (.object o) ∧ o.key = k from
      .inl ⟨trivial, _, rfl, fun k => ?_⟩).congr (by simp) fun k => ⟨?_, ?_⟩
  · rcases t.fullSummary with - | o | summary
    · simp
    · simp [List.mem_insert_iff, or_comm, eq_comm]
    · simp
  · rintro (h | h | ⟨o, ho, rfl⟩)
    · exact .before h
    · exact .after h
    · exact .summary ho
  · rintro (h | h | ho)
    · exact .inl h
    · exact .inr (.inl h)
    · exact .inr (.inr ⟨_, ho, rfl⟩)

/-- A row that does not decode stops the pass. -/
theorem row_gathers {α : Type} {f : α → List String → Except String (List String)}
    {ok : α → Prop} {refs : α → String → Prop} (hf : ∀ a keys, Gathers (f a keys) keys (ok a) (refs a))
    (keys : List String) (row : Option α) :
    Gathers (do let a ← orError "expected value" row; f a keys) keys (∃ a, row = some a ∧ ok a)
      fun k => ∃ a, row = some a ∧ refs a k := by
  cases row with
  | none => exact .inr ⟨by simp, "expected value", rfl⟩
  | some a => exact (hf a keys).congr (by simp) (by simp)

theorem rows_gather (rows : SnapshotRows) :
    Gathers (rows.referenced svc objects) [] (rows.Readable svc objects)
      (rows.Needs svc objects) := by
  have hsnapshot := row_gathers fun (s : Snapshot) keys =>
    @snapshot_gathers svc objects s.attach keys
  have hfrozen := row_gathers fun (t : FrozenTurn) keys =>
    @frozen_gathers svc objects t.attach keys
  refine ((gathers_foldlM hsnapshot rows.taskBaselines []).bind fun keys =>
    (gathers_foldlM hsnapshot rows.turnBaselines keys).bind fun keys =>
      gathers_foldlM hfrozen rows.frozenTurns keys).congr ⟨?_, ?_⟩ fun k => ⟨?_, ?_⟩
  · exact fun ⟨h₁, h₂, h₃⟩ => ⟨h₁, h₂, h₃⟩
  · exact fun h => ⟨h.baselines, h.turns, h.frozen⟩
  · rintro (⟨_, hrow, s, rfl, h⟩ | ⟨_, hrow, s, rfl, h⟩ | ⟨_, hrow, t, rfl, h⟩)
    · exact .baseline hrow h
    · exact .turn hrow h
    · exact .frozen hrow h
  · rintro (⟨hrow, h⟩ | ⟨hrow, h⟩ | ⟨hrow, h⟩)
    · exact .inl ⟨_, hrow, _, rfl, h⟩
    · exact .inr (.inl ⟨_, hrow, _, rfl, h⟩)
    · exact .inr (.inr ⟨_, hrow, _, rfl, h⟩)

end Mark

section Sweep

variable {refuses : FileName → Bool} {keys : List String} {d d₀ : SnapshotDir} {e : DirEntry}

theorem objectKey?_name {key : String} (h : e.objectKey? = some key) : e.name = .text key := by
  unfold DirEntry.objectKey? at h
  split at h
  · split_ifs at h
    rw [← Option.some.inj h]
    assumption
  · cases h

theorem not_garbage {key : String} (hname : e.name = .text key) (hkey : key ∈ keys) :
    e.garbage keys = false := by
  unfold DirEntry.garbage
  split
  · next key' h =>
    obtain rfl := FileName.text.inj (hname.symm.trans (objectKey?_name h))
    simpa using hkey
  · rfl

/-- What an unfinished sweep has made of the directory: some garbage is gone. -/
structure Swept (keys : List String) (d₀ d : SnapshotDir) : Prop where
  old : ∀ e ∈ d.entries, e ∈ d₀.entries
  kept : ∀ e ∈ d₀.entries, e.garbage keys = false → e ∈ d.entries

theorem Swept.remove (h : Swept keys d₀ d) (he : e ∈ d₀.entries) (hg : e.garbage keys = true) :
    Swept keys d₀ (d.remove e.name) := by
  refine ⟨fun x hx => h.old x (List.mem_filter.1 hx).1, fun x hx hxg => ?_⟩
  refine List.mem_filter.2 ⟨h.kept x hx hxg, ?_⟩
  have hne : x.name ≠ e.name := fun hname => by
    obtain rfl := List.inj_on_of_nodup_map d₀.nodup hx he hname
    rw [hg] at hxg
    cases hxg
  simpa using hne

theorem sweep_swept : ∀ (listed : List DirEntry) (d : SnapshotDir), (∀ e ∈ listed, e ∈ d₀.entries) →
    Swept keys d₀ d → Swept keys d₀ (d.sweep refuses keys listed).2
  | [], _, _, h => h
  | e :: rest, d, hlisted, h => by
    obtain ⟨he, hrest⟩ := List.forall_mem_cons.1 hlisted
    unfold SnapshotDir.sweep
    split_ifs with hg
    · exact h
    · exact sweep_swept rest _ hrest (h.remove he hg)
    · exact sweep_swept rest d hrest h

/-- A sweep that ends well has removed the garbage among the entries it went through. -/
theorem sweep_clean : ∀ (listed : List DirEntry) (d : SnapshotDir),
    (d.sweep refuses keys listed).1 = .ok () →
    ∀ e ∈ (d.sweep refuses keys listed).2.entries,
      e ∈ d.entries ∧ (e ∈ listed → e.garbage keys = false)
  | [], _, _, e, he => ⟨he, fun h => absurd h List.not_mem_nil⟩
  | x :: rest, d, hok, e, he => by
    unfold SnapshotDir.sweep at hok he
    split_ifs at hok he with hg
    · obtain ⟨hd, hrest⟩ := sweep_clean rest _ hok e he
      obtain ⟨hd, hname⟩ := List.mem_filter.1 hd
      refine ⟨hd, fun hmem => ?_⟩
      rcases List.mem_cons.1 hmem with rfl | hmem
      · simp at hname
      · exact hrest hmem
    · obtain ⟨hd, hrest⟩ := sweep_clean rest d hok e he
      refine ⟨hd, fun hmem => ?_⟩
      rcases List.mem_cons.1 hmem with rfl | hmem
      · simpa using hg
      · exact hrest hmem

theorem sweep_succeeds (h : ∀ name, refuses name = false) : ∀ (listed : List DirEntry)
    (d : SnapshotDir), (d.sweep refuses keys listed).1 = .ok ()
  | [], _ => rfl
  | e :: rest, d => by
    unfold SnapshotDir.sweep
    simp only [h e.name, Bool.false_eq_true, if_false]
    split_ifs
    · exact sweep_succeeds h rest _
    · exact sweep_succeeds h rest d

theorem mem_objects {key : String} {bytes : List UInt8} :
    (key, bytes) ∈ d.objects ↔ ∃ mode, ⟨.text key, .file bytes mode⟩ ∈ d.entries := by
  simp only [SnapshotDir.objects, List.mem_filterMap]
  constructor
  · rintro ⟨⟨name, node⟩, he, h⟩
    unfold DirEntry.stored? at h
    split at h
    · next name' bytes' mode hname hnode =>
      obtain ⟨rfl, rfl⟩ := Prod.mk.inj (Option.some.inj h)
      obtain rfl : name = _ := hname
      obtain rfl : node = _ := hnode
      exact ⟨mode, he⟩
    · cases h
  · rintro ⟨mode, he⟩
    exact ⟨_, he, rfl⟩

theorem objects_nodup (d : SnapshotDir) : (d.objects.map (·.1)).Nodup := by
  have hsub : ∀ entries : List DirEntry,
      List.Sublist (((entries.filterMap DirEntry.stored?).map (·.1)).map FileName.text)
        (entries.map (·.name)) := by
    intro entries
    induction entries with
    | nil => exact .slnil
    | cons e rest ih =>
      rcases h : e.stored? with - | p
      · rw [List.filterMap_cons_none h]
        exact ih.cons _
      · rw [List.filterMap_cons_some h]
        have hname : FileName.text p.1 = e.name := by
          unfold DirEntry.stored? at h
          split at h
          · rw [← Option.some.inj h]
            exact Eq.symm (by assumption)
          · cases h
        rw [List.map_cons, List.map_cons, List.map_cons, hname]
        exact ih.cons_cons _
  exact (d.nodup.sublist (hsub d.entries)).of_map _

/-- An object whose key was marked is still the object it was. -/
theorem Swept.lookup (h : Swept keys d₀ d) {key : String} (hkey : key ∈ keys) :
    d.objects.lookup key = d₀.objects.lookup key := by
  refine Option.ext fun bytes => ?_
  simp only [Assoc.lookup_eq_some (objects_nodup _), mem_objects]
  constructor
  · rintro ⟨mode, he⟩
    exact ⟨mode, h.old _ he⟩
  · rintro ⟨mode, he⟩
    exact ⟨mode, h.kept _ he (not_garbage rfl hkey)⟩

end Sweep

section Footprints

variable {svc : Services} {objects : Objects}

/-- The objects of a directory, by key. -/
def byKey (objects : Objects) (key : String) : Option (List UInt8) := objects.lookup key

theorem path_congr {o : Object} {objects' : Objects}
    (h : byKey objects' o.key = byKey objects o.key) : o.path objects' = o.path objects := by
  unfold byKey at h
  unfold Object.path
  rw [h]

theorem read_reads {α : Type} (parse : List UInt8 → Option α) (o : Object) :
    Reads byKey {o.key} (fun objects => o.read svc objects parse) objects :=
  reads_of_view fun objects' h => by
    unfold Object.read
    rw [path_congr h]

theorem load_reads (o : Object) :
    Reads byKey {o.key} (fun objects => (Contents.object o).load svc objects) objects :=
  reads_of_view fun objects' h => by
    show o.checked svc objects' = o.checked svc objects
    unfold Object.checked
    rw [path_congr h]

theorem materialized_reads (s : Snapshot) :
    Reads byKey {key | s.Needs svc objects key} (fun objects => s.materialized svc objects)
      objects := by
  unfold Snapshot.materialized
  rcases h : s.manifest with - | o
  · exact reads_const
  · refine Reads.bind ((read_reads _ o).mono ?_) fun _ _ => reads_const
    rintro _ rfl
    exact .manifest h

theorem frozen_reads (t : FrozenTurn) :
    Reads byKey {key | t.Needs svc objects key} (fun objects => t.materialized svc objects)
      objects := by
  have hfull : Reads byKey {key | t.Needs svc objects key} (fun objects => t.full svc objects)
      objects := by
    unfold FrozenTurn.full
    rcases h : t.fullSummary with - | o | summary
    · exact reads_const
    · refine (read_reads _ o).mono ?_
      rintro _ rfl
      exact .summary h
    · exact reads_const
  refine Reads.bind hfull fun _ _ => Reads.bind ?_ fun _ _ => Reads.bind ?_ fun _ _ => reads_const
  · exact (materialized_reads t.before).mono fun _ => .before
  · exact (materialized_reads t.after).mono fun _ => .after

theorem path_missing {o : Object} (h : byKey objects o.key = none) : ∃ e, o.path objects = .error e := by
  rcases hpath : o.path objects with e | bytes
  · exact ⟨e, rfl⟩
  · simp only [Object.path, bind_eq_ok, orError_eq_ok] at hpath
    obtain ⟨_, -, _, -, _, hfound, -⟩ := hpath
    rw [byKey, hfound] at h
    cases h

/-- What a snapshot needs it cannot do without. -/
theorem needs_necessary {s : Snapshot} {key : String} {objects' : Objects}
    (h : s.Needs svc objects key) (hlost : byKey objects' key = none)
    (hothers : ∀ k, k ≠ key → byKey objects' k = byKey objects k) :
    ¬∃ loaded, s.materialized svc objects' = .ok loaded ∧
      ∀ path c, (path, some c) ∈ loaded.files → ∃ bytes, c.load svc objects' = .ok bytes := by
  rintro ⟨loaded', hload', hfiles⟩
  have hmanifest : ∀ o, s.manifest = some o → o.key ≠ key := by
    rintro o ho rfl
    obtain ⟨e, he⟩ := path_missing hlost
    simp only [Snapshot.materialized, ho, Object.read, he, bind_eq_ok] at hload'
    obtain ⟨_, ⟨_, hpath, -⟩, -⟩ := hload'
    cases hpath
  rcases h with ho | @⟨loaded, path, o, hload, hfile⟩
  · exact hmanifest _ ho rfl
  · have hsame : s.materialized svc objects' = s.materialized svc objects := by
      unfold Snapshot.materialized
      rcases ho : s.manifest with - | m
      · rfl
      · simp only [read_reads svc.parseSnapshot m objects' fun k hk => hothers k
          (by rw [Set.mem_singleton_iff.1 hk]; exact hmanifest m ho)]
    obtain rfl := Except.ok.inj (hload'.symm.trans (hsame.trans hload))
    obtain ⟨bytes, hbytes⟩ := hfiles path _ hfile
    obtain ⟨e, he⟩ := path_missing hlost
    simp only [Contents.load, Object.checked, he, bind_eq_ok] at hbytes
    obtain ⟨_, hpath, -⟩ := hbytes
    cases hpath

def singleObject : Object := { key := "k", size := 1, attached := true }

/-- A snapshot of one file. -/
def singleFile : Snapshot where
  atMs := 0
  files := [("f", some (.object singleObject))]
  storage := true

def singleServices : Services where
  sha256 _ := "k"
  parseSnapshot _ := none
  parseSummary _ := none
  numstat _ := .ok ([], false)

theorem needs_necessary_singleFile : ¬∃ loaded, singleFile.materialized singleServices [] = .ok loaded ∧
    ∀ path c, (path, some c) ∈ loaded.files → ∃ bytes, c.load singleServices [] = .ok bytes :=
  @needs_necessary singleServices [("k", [97])] singleFile singleObject.key []
    (.contents rfl (List.mem_singleton.2 rfl)) rfl
    fun k hk => by
      have hne : (k == "k") = false := beq_eq_false_iff_ne.2 hk
      rw [byKey, byKey, List.lookup_cons, hne]

end Footprints

/-- A snapshot reads over two directories alike: its list of files, and the bytes of each. -/
structure Snapshot.SameReads (svc : Services) (objects objects' : Objects) (s : Snapshot) :
    Prop where
  loaded : s.materialized svc objects' = s.materialized svc objects
  contents : ∀ loaded path c, s.materialized svc objects = .ok loaded →
    (path, some c) ∈ loaded.files → c.load svc objects' = c.load svc objects

/-- A frozen turn reads over two directories alike. -/
structure FrozenTurn.SameReads (svc : Services) (objects objects' : Objects) (t : FrozenTurn) :
    Prop where
  loaded : t.materialized svc objects' = t.materialized svc objects
  before : t.before.SameReads svc objects objects'
  after : t.after.SameReads svc objects objects'

section Collect

variable {svc : Services} {objects objects' : Objects}

theorem snapshot_sameReads {s : Snapshot}
    (h : Agree byKey {key | s.Needs svc objects key} objects objects') :
    s.SameReads svc objects objects' := by
  refine ⟨materialized_reads s objects' h, fun loaded path c hload hfile => ?_⟩
  cases c with
  | legacy bytes => rfl
  | object o =>
    refine load_reads o objects' ?_
    rintro _ rfl
    exact h _ (.contents hload hfile)

theorem frozen_sameReads {t : FrozenTurn}
    (h : Agree byKey {key | t.Needs svc objects key} objects objects') :
    t.SameReads svc objects objects' where
  loaded := frozen_reads t objects' h
  before := snapshot_sameReads fun _ hk => h _ (.before hk)
  after := snapshot_sameReads fun _ hk => h _ (.after hk)

variable {refuses : FileName → Bool} {rows : SnapshotRows} {d : SnapshotDir}

theorem collect_run {keys : List String} (h : rows.referenced svc d.objects = .ok keys) :
    collectSnapshotGarbage svc refuses rows d = d.sweep refuses keys d.entries := by
  unfold collectSnapshotGarbage
  rw [h]

theorem collect_stops {e : String} (h : rows.referenced svc d.objects = .error e) :
    collectSnapshotGarbage svc refuses rows d = (.error e, d) := by
  unfold collectSnapshotGarbage
  rw [h]

theorem collect_swept {keys : List String} (h : rows.referenced svc d.objects = .ok keys) :
    Swept keys d (collectSnapshotGarbage svc refuses rows d).2 := by
  rw [collect_run h]
  exact sweep_swept d.entries d (fun _ h => h) ⟨fun _ h => h, fun _ h _ => h⟩

/-- What the records need is there after the collection as before. -/
theorem collect_agree : Agree byKey {key | rows.Needs svc d.objects key} d.objects
    (collectSnapshotGarbage svc refuses rows d).2.objects := by
  rcases @rows_gather svc d.objects rows with ⟨-, keys, hkeys, hmem⟩ | ⟨-, e, he⟩
  · exact fun key hkey => (collect_swept hkeys).lookup ((hmem key).2 (.inr hkey))
  · rw [collect_stops he]
    exact fun _ _ => rfl

/-- The record of a finished turn, as the server reads it for undo and for its change list. -/
theorem turnRecord_sameReads {s : Store} {id requestId : String} {t : FrozenTurn}
    (h : s.turnRecord id requestId = some t) : t.attach.SameReads svc d.objects
      (collectSnapshotGarbage svc refuses s.snapshotRows d).2.objects := by
  obtain ⟨row, hfind, hdata⟩ := Option.bind_eq_some_iff.1 h
  have hrow : some t ∈ s.snapshotRows.frozenTurns :=
    List.mem_map.2 ⟨t, List.mem_filterMap.2 ⟨row, List.mem_of_find?_eq_some hfind, hdata⟩, rfl⟩
  exact frozen_sameReads fun key hkey => collect_agree key (.frozen hrow hkey)

/-- The baseline of a turn under way, as freezing it reads it. -/
theorem pendingTurn_sameReads {s : Store} {id requestId : String} {baseline : Snapshot}
    (h : s.pendingTurn id = some (requestId, baseline)) : baseline.attach.SameReads svc d.objects
      (collectSnapshotGarbage svc refuses s.snapshotRows d).2.objects := by
  obtain ⟨row, hfind, hrow⟩ := Option.bind_eq_some_iff.1 h
  obtain ⟨found, hbaseline, hpair⟩ := Option.map_eq_some_iff.1 hrow
  obtain rfl : found = baseline := (Prod.mk.inj hpair).2
  have hrow : some found ∈ s.snapshotRows.turnBaselines :=
    List.mem_map.2 ⟨found, List.mem_filterMap.2
      ⟨row, List.mem_reverse.1 (List.mem_of_find?_eq_some hfind), hbaseline⟩, rfl⟩
  exact snapshot_sameReads fun key hkey => collect_agree key (.turn hrow hkey)

/-- The collector is safe and exact, for any records, any directory and whatever files the system
refuses to remove. If a record or a list of files cannot be read it fails and removes nothing.
Otherwise it keeps every file that a record needs and every entry that is no object file, changes
none, and unless the system refuses a removal it removes every other object file; each record
reads as before. -/
theorem collect_exact_safe (svc : Services) (refuses : FileName → Bool) (rows : SnapshotRows)
    (d : SnapshotDir) :
    let result := (collectSnapshotGarbage svc refuses rows d).1
    let after := (collectSnapshotGarbage svc refuses rows d).2
    (¬rows.Readable svc d.objects → (∃ e, result = .error e) ∧ after = d) ∧
    (rows.Readable svc d.objects →
      (∀ e ∈ after.entries, e ∈ d.entries) ∧
      (∀ e ∈ d.entries, ∀ key, e.name = .text key → rows.Needs svc d.objects key →
        e ∈ after.entries) ∧
      (∀ e ∈ d.entries, e.objectKey? = none → e ∈ after.entries) ∧
      (result = .ok () → ∀ e ∈ d.entries, ∀ key, e.objectKey? = some key →
        ¬rows.Needs svc d.objects key → e ∉ after.entries) ∧
      ((∀ name, refuses name = false) → result = .ok ())) ∧
    (∀ s, some s ∈ rows.taskBaselines ∨ some s ∈ rows.turnBaselines →
      s.attach.SameReads svc d.objects after.objects) ∧
    (∀ t, some t ∈ rows.frozenTurns → t.attach.SameReads svc d.objects after.objects) := by
  intro result after
  refine ⟨fun hread => ?_, fun hread => ?_, ?_, ?_⟩
  · rcases @rows_gather svc d.objects rows with ⟨h, -⟩ | ⟨-, e, he⟩
    · exact absurd h hread
    · exact ⟨⟨e, congrArg Prod.fst (collect_stops he)⟩, congrArg Prod.snd (collect_stops he)⟩
  · rcases @rows_gather svc d.objects rows with ⟨-, keys, hkeys, hmem⟩ | ⟨h, -⟩
    · have hneeds : ∀ key, key ∈ keys ↔ rows.Needs svc d.objects key := fun key => by
        simpa using hmem key
      have hswept : Swept keys d after := collect_swept hkeys
      have hresult : result = (d.sweep refuses keys d.entries).1 :=
        congrArg Prod.fst (collect_run hkeys)
      have hafter : after = (d.sweep refuses keys d.entries).2 :=
        congrArg Prod.snd (collect_run hkeys)
      refine ⟨hswept.old, ?_, ?_, ?_, ?_⟩
      · exact fun e he key hname hkey => hswept.kept e he (not_garbage hname ((hneeds key).2 hkey))
      · refine fun e he hkey => hswept.kept e he ?_
        unfold DirEntry.garbage
        rw [hkey]
      · intro hok e he key hkey hfree hmem
        rw [hresult] at hok
        rw [hafter] at hmem
        have hclean := (sweep_clean d.entries d hok e hmem).2 he
        unfold DirEntry.garbage at hclean
        simp only [hkey, hneeds, decide_eq_false_iff_not, not_not] at hclean
        exact hfree hclean
      · intro h
        rw [hresult]
        exact sweep_succeeds h d.entries d
    · exact absurd hread h
  · rintro s (hs | hs)
    · exact snapshot_sameReads fun key hkey => collect_agree key (.baseline hs hkey)
    · exact snapshot_sameReads fun key hkey => collect_agree key (.turn hs hkey)
  · exact fun t ht => frozen_sameReads fun key hkey => collect_agree key (.frozen ht hkey)

end Collect

end LatteWork
