import LatteWork.Lib.Assoc
import LatteWork.Lib.Table
import LatteWork.Snapshot.Frozen
import Mathlib.Control.Traversable.Instances
import Mathlib.Data.String.Basic

/-!
# What a change list says

The list of a turn has the paths at which the two snapshots differ, in order, but for those that a
truncated snapshot does not have (`compareLoaded_lists`). A frozen turn reads back as its complete
list and the data of both snapshots at the listed paths (`freeze_loads`), so a patch of it is the
difference of the contents that were compared, and there is one for each listed path
(`change_lists`).
-/

namespace LatteWork

open Fallible Table

section Compare

namespace Snapshot

variable {svc : Services} {objects : Objects} {before after : Snapshot} {path : String}
  {result result' : ChangeSummary}

/-- A path that is missing from a truncated snapshot: nothing is known of it. -/
def Misses (s : Snapshot) (path : String) : Prop :=
  s.truncated = true ∧ (s.files.any (·.1 = path)) = false

instance (s : Snapshot) (path : String) : Decidable (s.Misses path) :=
  inferInstanceAs (Decidable (_ ∧ _))

/-- The paths of a list: the recorded contents differ, and no truncated snapshot misses one. -/
def Changed (svc : Services) (before after : Snapshot) (path : String) : Prop :=
  before.differ svc after path = true ∧ ¬before.Misses path ∧ ¬after.Misses path

instance (path : String) : Decidable (before.Changed svc after path) :=
  inferInstanceAs (Decidable (_ ∧ _))

/-- What became of a path. -/
def statusOf (before after : Snapshot) (path : String) : String :=
  if (before.contents path).isNone then "A" else if (after.contents path).isNone then "D" else "M"

/-- The bytes of a path, none for one without contents. -/
def bytesAt (svc : Services) (objects : Objects) (s : Snapshot) (path : String) :
    Except String (Option (List UInt8)) :=
  (s.contents path).mapM (Contents.load svc objects)

theorem bytesAt_of_some {s : Snapshot} {c : Contents} (h : s.contents path = some c) :
    s.bytesAt svc objects path = (c.load svc objects).map some := by
  rw [bytesAt, h]
  rcases hload : c.load svc objects with e | b <;> simp [Option.mapM, hload] <;> rfl

theorem bytesAt_of_none {s : Snapshot} (h : s.contents path = none) :
    s.bytesAt svc objects path = .ok none := by
  rw [bytesAt, h]
  rfl

theorem loads_iff_bytesAt {s : Snapshot} :
    (∃ files, (s.contents path).toList.mapM (Contents.load svc objects) = .ok files) ↔
      ∃ bytes, s.bytesAt svc objects path = .ok bytes := by
  rcases hc : s.contents path with _ | c
  · rw [bytesAt_of_none hc]
    simp [pure, Except.pure]
  · rw [bytesAt_of_some hc]
    rcases hload : c.load svc objects with e | b
    · simp [hload, Functor.map, Except.map]
    · simp [hload, Except.map, pure, Except.pure]

theorem contents_of_missing {s : Snapshot} (h : (s.files.any (·.1 = path)) = false) :
    s.contents path = none := by
  have hnone : s.files.lookup path = none := List.lookup_eq_none_iff.2 fun e he => by
    have hne : e.1 ≠ path := of_decide_eq_false (Bool.eq_false_iff.2 (List.any_eq_false.1 h e he))
    exact bne_iff_ne.2 hne.symm
  rw [contents, hnone]
  rfl

/-- Where the contents differ, one of the two snapshots has the path. -/
theorem contents_of_differ (h : before.differ svc after path = true) :
    (before.contents path).isSome ∨ (after.contents path).isSome := by
  rcases hb : before.contents path with _ | c <;> rcases ha : after.contents path with _ | d
  · simp [differ, hb, ha] at h
  all_goals simp

/-- Where two snapshots differ, the contents of one side at a path the other one does not have are
all there is of it. -/
theorem lost_iff (h : before.differ svc after path = true) :
    ((before.contents path).isSome ∧ ¬after.files.any (·.1 = path) = true ∧ after.truncated = true ∨
      (after.contents path).isSome ∧ ¬before.files.any (·.1 = path) = true ∧
        before.truncated = true) ↔ before.Misses path ∨ after.Misses path := by
  have hsome := contents_of_differ h
  simp only [Bool.not_eq_true]
  constructor
  · rintro (⟨-, hmissing, hcut⟩ | ⟨-, hmissing, hcut⟩)
    · exact .inr ⟨hcut, hmissing⟩
    · exact .inl ⟨hcut, hmissing⟩
  · rintro (⟨hcut, hmissing⟩ | ⟨hcut, hmissing⟩)
    · rw [contents_of_missing hmissing] at hsome ⊢
      exact .inr ⟨hsome.resolve_left (by simp), hmissing, hcut⟩
    · rw [contents_of_missing hmissing] at hsome ⊢
      exact .inl ⟨hsome.resolve_right (by simp), hmissing, hcut⟩

/-- The comparison of a path appends an entry for one that is listed, and nothing for another. -/
theorem compareStep_eq_ok :
    before.compareStep svc objects after result path = .ok result' ↔
      (before.Changed svc after path ∧
        ((∃ old, before.bytesAt svc objects path = .ok old) ∧
          ∃ new, after.bytesAt svc objects path = .ok new) ∧
        result' = { result with
          entries := result.entries ++
            [{ path, status := before.statusOf after path, added := none, removed := none }] }) ∨
      (¬before.Changed svc after path ∧
        result' = { result with
          truncated := result.truncated || before.differ svc after path }) := by
  simp only [compareStep]
  by_cases hdiff : before.differ svc after path = true
  · by_cases hlost : before.Misses path ∨ after.Misses path
    · have hchanged : ¬before.Changed svc after path := fun h =>
        hlost.elim h.2.1 h.2.2
      rw [if_neg (not_not.2 hdiff), if_pos ((lost_iff hdiff).2 hlost)]
      simp [hchanged, hdiff, eq_comm]
    · have hchanged : before.Changed svc after path := ⟨hdiff, not_or.1 hlost⟩
      rw [if_neg (not_not.2 hdiff), if_neg (mt (lost_iff hdiff).1 hlost)]
      simp only [bind_eq_ok, hchanged, not_true_eq_false, false_and, or_false, true_and]
      rw [← loads_iff_bytesAt, ← loads_iff_bytesAt]
      constructor
      · rintro ⟨old, hold, new, hnew, h⟩
        exact ⟨⟨⟨old, hold⟩, new, hnew⟩, (Except.ok.inj h).symm⟩
      · rintro ⟨⟨⟨old, hold⟩, new, hnew⟩, rfl⟩
        exact ⟨old, hold, new, hnew, rfl⟩
  · have hchanged : ¬before.Changed svc after path := fun h => hdiff h.1
    rw [if_pos hdiff]
    rw [Bool.not_eq_true] at hdiff
    simp only [hchanged, false_and, not_false_eq_true, true_and, false_or, hdiff, Bool.or_false]
    exact ⟨fun h => (Except.ok.inj h).symm, fun h => congrArg Except.ok h.symm⟩

/-- What a list says of paths and what became of them. -/
def listed (summary : ChangeSummary) : List (String × String) :=
  summary.entries.map fun e => (e.path, e.status)

/-- The comparison of all paths lists the changed ones, and has read their contents. -/
theorem compareFold_listed : ∀ {paths : List String} {result : ChangeSummary},
    paths.foldlM (before.compareStep svc objects after) result = .ok result' →
    listed result' = listed result ++
        (paths.filter (before.Changed svc after ·)).map (fun p => (p, before.statusOf after p)) ∧
      result'.unavailable = result.unavailable ∧ (result.truncated = true → result'.truncated = true) ∧
      ∀ path ∈ paths, before.Changed svc after path →
        (∃ old, before.bytesAt svc objects path = .ok old) ∧
          ∃ new, after.bytesAt svc objects path = .ok new
  | [], result, h => by
    simp only [List.foldlM_nil, pure_eq_ok] at h
    subst h
    simp
  | path :: paths, result, h => by
    simp only [List.foldlM_cons, bind_eq_ok] at h
    obtain ⟨next, hstep, h⟩ := h
    obtain ⟨hlisted, hunavailable, hcut, hread⟩ := compareFold_listed h
    rcases compareStep_eq_ok.1 hstep with ⟨hchanged, hbytes, rfl⟩ | ⟨hchanged, rfl⟩
    · refine ⟨?_, hunavailable, hcut, ?_⟩
      · rw [hlisted, List.filter_cons_of_pos (by simpa using hchanged)]
        simp [listed]
      · simpa [hchanged] using ⟨hbytes, hread⟩
    · refine ⟨?_, hunavailable, fun h => hcut (by simp [h]), ?_⟩
      · rw [hlisted, List.filter_cons_of_neg (by simpa using hchanged)]
        simp [listed]
      · simpa [hchanged] using hread

/-- The comparison succeeds when the contents of the changed paths can be read. -/
theorem compareFold_succeeds : ∀ (paths : List String) (result : ChangeSummary),
    (∀ path ∈ paths, before.Changed svc after path →
      (∃ old, before.bytesAt svc objects path = .ok old) ∧
        ∃ new, after.bytesAt svc objects path = .ok new) →
    ∃ result', paths.foldlM (before.compareStep svc objects after) result = .ok result'
  | [], result, _ => ⟨result, rfl⟩
  | path :: paths, result, h => by
    obtain ⟨hpath, hrest⟩ := List.forall_mem_cons.1 h
    obtain ⟨next, hstep⟩ : ∃ next, before.compareStep svc objects after result path = .ok next := by
      by_cases hchanged : before.Changed svc after path
      · exact ⟨_, compareStep_eq_ok.2 (.inl ⟨hchanged, hpath hchanged, rfl⟩)⟩
      · exact ⟨_, compareStep_eq_ok.2 (.inr ⟨hchanged, rfl⟩)⟩
    obtain ⟨result', hfold⟩ := compareFold_succeeds paths next hrest
    exact ⟨result', by rw [List.foldlM_cons, bind_eq_ok]; exact ⟨next, hstep, hfold⟩⟩

/-- Counting lines changes neither what is listed nor what is known of the list. -/
theorem countLines_listed (result : ChangeSummary) (record : ℕ × Option ℕ × Option ℕ) :
    listed (countLines result record) = listed result ∧
      (countLines result record).unavailable = result.unavailable ∧
      (result.truncated = true → (countLines result record).truncated = true) := by
  obtain ⟨index, added, removed⟩ := record
  rw [countLines]
  rcases hentry : result.entries[index]? with _ | entry
  · simp [listed]
  · have hsame : (result.entries.set index { entry with added, removed }).map
        (fun e => (e.path, e.status)) = result.entries.map fun e => (e.path, e.status) := by
      obtain ⟨hlt, hget⟩ := List.getElem?_eq_some_iff.1 hentry
      refine List.ext_getElem? fun i => ?_
      rw [List.getElem?_map, List.getElem?_map, List.getElem?_set]
      by_cases hi : index = i
      · subst hi
        simp [hlt, hget]
      · simp [hi]
    rcases added with _ | a <;> rcases removed with _ | r <;> exact ⟨hsame, rfl, id⟩

theorem countFold_listed : ∀ (records : List (ℕ × Option ℕ × Option ℕ)) (result : ChangeSummary),
    listed (records.foldl countLines result) = listed result ∧
      (records.foldl countLines result).unavailable = result.unavailable ∧
      (result.truncated = true → (records.foldl countLines result).truncated = true)
  | [], _ => ⟨rfl, rfl, id⟩
  | record :: records, result => by
    obtain ⟨hlisted, hunavailable, hcut⟩ := countLines_listed result record
    obtain ⟨hlisted', hunavailable', hcut'⟩ := countFold_listed records (countLines result record)
    exact ⟨hlisted'.trans hlisted, hunavailable'.trans hunavailable, fun h => hcut' (hcut h)⟩

/-- The list of two available snapshots: the changed paths with what became of them. -/
structure Lists (svc : Services) (objects : Objects) (before after : Snapshot)
    (summary : ChangeSummary) : Prop where
  listed : listed summary = ((before.paths after).filter (before.Changed svc after ·)).map
    fun p => (p, before.statusOf after p)
  unavailable : summary.unavailable = none
  truncated : before.truncated = true ∨ after.truncated = true → summary.truncated = true
  read : ∀ path, before.Changed svc after path →
    (∃ old, before.bytesAt svc objects path = .ok old) ∧
      ∃ new, after.bytesAt svc objects path = .ok new

theorem mem_paths_of_contents (h : (before.contents path).isSome ∨ (after.contents path).isSome) :
    path ∈ before.paths after := by
  have hkey {s : Snapshot} (hs : (s.contents path).isSome) : path ∈ s.files.map (·.1) := by
    by_contra hnot
    have hmissing : (s.files.any (·.1 = path)) = false := List.any_eq_false.2 fun e he hkey =>
      hnot (List.mem_map.2 ⟨e, he, of_decide_eq_true hkey⟩)
    simp [contents_of_missing hmissing] at hs
  rw [paths, List.mem_dedup, List.mem_insertionSort, List.mem_append]
  exact h.imp hkey hkey

theorem mem_paths_of_differ (h : before.differ svc after path = true) :
    path ∈ before.paths after :=
  mem_paths_of_contents (contents_of_differ h)

theorem compareLoaded_lists {summary : ChangeSummary} (hbefore : before.unavailable = none)
    (hafter : after.unavailable = none)
    (h : before.compareLoaded svc objects after = .ok summary) :
    Lists svc objects before after summary := by
  simp only [compareLoaded, hbefore, hafter, Option.isSome_none, Bool.false_eq_true, or_self,
    if_false, bind_eq_ok] at h
  obtain ⟨_, -, result, hfold, h⟩ := h
  obtain ⟨hlisted, hunavailable, hcut, hread⟩ := compareFold_listed hfold
  have hread (path : String) (hchanged : before.Changed svc after path) :=
    hread path (mem_paths_of_differ hchanged.1) hchanged
  have hwhole : before.truncated = true ∨ after.truncated = true → result.truncated = true :=
    fun h => hcut (by simpa using h)
  split at h
  · obtain rfl := Except.ok.inj h
    exact ⟨hlisted, hunavailable.trans hbefore, hwhole, hread⟩
  · simp only [bind_eq_ok] at h
    obtain ⟨⟨stats, cut⟩, -, h⟩ := h
    obtain rfl := Except.ok.inj h
    obtain ⟨hcounted, hunavailable', hcut'⟩ :=
      countFold_listed stats { result with truncated := result.truncated || cut }
    exact ⟨hcounted.trans hlisted, (hunavailable'.trans hunavailable).trans hbefore,
      fun h => hcut' (by simp [hwhole h]), hread⟩

/-- The comparison succeeds when the contents of the changed paths can be read and Git counts the
lines. -/
theorem compareLoaded_succeeds (hroot : before.rootIdentity = after.rootIdentity)
    (hread : ∀ path, before.Changed svc after path →
      (∃ old, before.bytesAt svc objects path = .ok old) ∧
        ∃ new, after.bytesAt svc objects path = .ok new)
    (hcounts : ∀ files, ∃ stats, svc.numstat files = .ok stats) :
    ∃ summary, before.compareLoaded svc objects after = .ok summary := by
  unfold compareLoaded
  rw [bailIf_pass (by simp [hroot])]
  split
  · exact ⟨_, rfl⟩
  · obtain ⟨result, hfold⟩ := compareFold_succeeds (before.paths after)
      { before.emptySummary with truncated := before.truncated || after.truncated }
      fun path _ => hread path
    by_cases hnone : result.entries = []
    · exact ⟨result, bind_eq_ok.2 ⟨result, hfold, if_pos hnone⟩⟩
    · obtain ⟨⟨stats, cut⟩, hstats⟩ := hcounts (result.entries.map fun e =>
        ((before.contents e.path).bind fun c => (c.load svc objects).toOption,
          (after.contents e.path).bind fun c => (c.load svc objects).toOption))
      refine ⟨stats.foldl countLines { result with truncated := result.truncated || cut },
        bind_eq_ok.2 ⟨result, hfold, ?_⟩⟩
      rw [if_neg hnone]
      exact bind_eq_ok.2 ⟨(stats, cut), hstats, rfl⟩

/-- The paths of two snapshots are in order, each once. -/
theorem paths_ordered : (before.paths after).Pairwise (· < ·) := by
  have hsorted : (before.paths after).Pairwise (· ≤ ·) :=
    (List.pairwise_insertionSort (· ≤ ·) _).sublist (List.dedup_sublist _)
  have hnodup : (before.paths after).Pairwise (· ≠ ·) := List.nodup_dedup _
  exact (hsorted.and hnodup).imp fun h => lt_of_le_of_ne h.1 h.2

/-- Of two snapshots that have all their paths, the list has those at which they differ. -/
theorem compareLoaded_paths {summary : ChangeSummary}
    (h : before.compareLoaded svc objects after = .ok summary) (hwhole : summary.truncated = false)
    (havailable : summary.unavailable = none) :
    summary.entries.map (·.path) = (before.paths after).filter (before.differ svc after) := by
  have hboth : before.unavailable = none ∧ after.unavailable = none := by
    by_contra hnot
    simp only [compareLoaded, bind_eq_ok] at h
    obtain ⟨_, -, h⟩ := h
    split at h
    · obtain rfl := Except.ok.inj h
      rcases hb : before.unavailable with _ | m <;> simp_all
    · rename_i hsome
      exact hnot (by simpa [not_or] using hsome)
  have hlists := compareLoaded_lists hboth.1 hboth.2 h
  have hknown : ¬before.truncated = true ∧ ¬after.truncated = true := by
    rw [← not_or]
    intro hcut
    simp [hlists.truncated hcut] at hwhole
  have hpaths : summary.entries.map (·.path) = (listed summary).map (·.1) := by simp [listed]
  rw [hpaths, hlists.listed, List.map_map]
  have hsame : ∀ path ∈ before.paths after,
      decide (before.Changed svc after path) = before.differ svc after path := fun path _ => by
    simp [Changed, Misses, hknown]
  rw [List.filter_congr hsame]
  exact List.map_id _

end Snapshot

end Compare

section Freeze

variable {svc : Services} {objects objects₀ objects₁ : Objects}

/-- The object directory still has a text that was saved, and the text parses back. No other bytes
with its hash are there in its place. -/
structure Kept {α : Type} (svc : Services) (objects : Objects) (parse : List UInt8 → Option α)
    (text : List UInt8) (value : α) : Prop where
  intact : ∀ found, objects.lookup (svc.sha256 text) = some found →
    svc.sha256 found = svc.sha256 text → found = text
  parses : parse text = some value

theorem Kept.read_eq {α : Type} {parse : List UInt8 → Option α} {text : List UInt8} {value v : α}
    {o : Object} (h : Kept svc objects parse text value) (hkey : o.key = svc.sha256 text)
    (hread : o.read svc objects parse = .ok v) : v = value := by
  simp only [Object.read, Object.path, bind_eq_ok, bailIf_eq_ok, orError_eq_ok, not_not] at hread
  obtain ⟨bytes, ⟨_, -, _, -, found, hfound, _, -, hbytes⟩, v', hparse, _, hsha, hv⟩ := hread
  obtain rfl := Except.ok.inj hbytes
  obtain rfl := Except.ok.inj hv
  rw [hkey] at hfound hsha
  rw [h.intact found hfound hsha, h.parses] at hparse
  exact (Option.some.inj hparse).symm

/-- The directory has the text itself under its hash, or nothing. -/
theorem kept_of_lookup {α : Type} {parse : List UInt8 → Option α} {text : List UInt8} {value : α}
    (h : objects.lookup (svc.sha256 text) = some text ∨ objects.lookup (svc.sha256 text) = none)
    (hparse : parse text = some value) : Kept svc objects parse text value := by
  refine ⟨fun found hfound _ => ?_, hparse⟩
  rcases h with h | h <;> rw [h] at hfound
  · exact (Option.some.inj hfound).symm
  · simp at hfound

theorem save_key {bytes : List UInt8} {o : Object}
    (h : objects.save svc bytes = .ok (o, objects₁)) : o.key = svc.sha256 bytes := by
  simp only [Objects.save, bind_eq_ok] at h
  obtain ⟨_, -, h⟩ := h
  rw [← (Prod.mk.inj (Except.ok.inj h)).1]

theorem attach_stored (c : Contents) : c.stored.attach = c.attach := by
  cases c <;> rfl

theorem attach_records {c : Contents} {bytes : List UInt8} :
    c.attach.Records svc bytes ↔ c.Records svc bytes := by
  cases c <;> rfl

/-- The data of a snapshot that comparing and restoring read. -/
structure SameData (s r : Snapshot) : Prop where
  contents : ∀ path, r.contents path = (s.contents path).map Contents.attach
  modes : r.modes = s.modes
  root : r.rootIdentity = s.rootIdentity

theorem contents_map_files (s : Snapshot) (f : Contents → Contents) (path : String) :
    ((s.files.map fun e => (e.1, e.2.map f)).lookup path).join = (s.contents path).map f := by
  rw [lookup_map_value, Snapshot.contents]
  cases s.files.lookup path <;> rfl

/-- A snapshot that was compacted, stored and read back has its data. -/
theorem persist_loads {s p r : Snapshot} (hwhole : s.manifest = none)
    (hkept : s.storage = true → Kept svc objects svc.parseSnapshot s.toJson.bytes s.stored)
    (hp : s.persist svc objects₀ = .ok (p, objects₁))
    (hr : p.attach.materialized svc objects = .ok r) : SameData s r := by
  simp only [Snapshot.persist, hwhole, Option.isSome_none, Bool.false_eq_true, if_false] at hp
  by_cases hstorage : s.storage = true
  · simp only [hstorage, if_true, bind_eq_ok] at hp
    obtain ⟨⟨o, objects₂⟩, hsave, hp⟩ := hp
    obtain ⟨rfl, -⟩ := Prod.mk.inj (Except.ok.inj hp)
    simp only [Snapshot.attach, Snapshot.materialized, Option.map_some, bind_eq_ok, if_true] at hr
    obtain ⟨loaded, hread, hr⟩ := hr
    obtain rfl := Except.ok.inj hr
    have hkey : o.key = svc.sha256 s.toJson.bytes := save_key hsave
    obtain rfl := (hkept hstorage).read_eq (o := o.attach) hkey hread
    refine ⟨fun path => ?_, rfl, rfl⟩
    have hstored : (s.stored.contents path) = (s.contents path).map Contents.stored :=
      contents_map_files s Contents.stored path
    have hattached := contents_map_files s.stored Contents.attach path
    rw [hstored, Option.map_map] at hattached
    have hfun : Contents.attach ∘ Contents.stored = Contents.attach := funext attach_stored
    rw [hfun] at hattached
    exact hattached
  · simp only [hstorage, Bool.false_eq_true, if_false] at hp
    obtain ⟨rfl, -⟩ := Prod.mk.inj (Except.ok.inj hp)
    have hmanifest : s.attach.manifest = none := by simp [Snapshot.attach, hwhole]
    simp only [Snapshot.materialized, hmanifest] at hr
    obtain rfl := Except.ok.inj hr
    exact ⟨fun path => contents_map_files s Contents.attach path, rfl, rfl⟩

theorem materialized_manifest {s r : Snapshot} (h : s.materialized svc objects = .ok r) :
    r.manifest = none := by
  unfold Snapshot.materialized at h
  split at h
  · rename_i hnone
    obtain rfl := Except.ok.inj h
    exact hnone
  · simp only [bind_eq_ok] at h
    obtain ⟨_, -, h⟩ := h
    obtain rfl := Except.ok.inj h
    rfl

theorem retain_manifest (s : Snapshot) (listed : List String) :
    (s.retain listed).manifest = s.manifest := rfl

theorem retain_contents (s : Snapshot) (listed : List String) (path : String) :
    (s.retain listed).contents path = if path ∈ listed then s.contents path else none := by
  have hfilter := lookup_filter_key (fun key => decide (key ∈ listed)) path s.files
  have hfiles : (s.retain listed).files.lookup path =
      if decide (path ∈ listed) then s.files.lookup path else none := hfilter
  rw [Snapshot.contents, hfiles, Snapshot.contents]
  by_cases hp : path ∈ listed <;> simp [hp]

theorem retain_modes {s : Snapshot} {listed : List String} {path : String} (hp : path ∈ listed)
    (hsome : (s.contents path).isSome) :
    (s.retain listed).modes.lookup path = s.modes.lookup path := by
  have hknown : ((s.retain listed).files.any fun e => decide (e.1 = path)) = true := by
    have hcontents := retain_contents s listed path
    rw [if_pos hp, Snapshot.contents] at hcontents
    rcases hl : (s.retain listed).files.lookup path with _ | c
    · rw [hl] at hcontents
      rw [← hcontents] at hsome
      simp at hsome
    · have hany := List.lookup_isSome_iff.1
        (by rw [hl]; rfl : ((s.retain listed).files.lookup path).isSome)
      obtain ⟨e, he, hkey⟩ := hany
      exact List.any_eq_true.2 ⟨e, he, decide_eq_true (eq_of_beq hkey).symm⟩
  have hfilter := lookup_filter_key
    (fun key => (s.retain listed).files.any fun e => decide (e.1 = key)) path s.modes
  simp only [hknown, if_true] at hfilter
  exact hfilter

theorem pageEntries_front : ∀ {l page : List TaskChange} {bytes : ℕ},
    pageEntries bytes l = .ok page → page <+: l
  | [], page, _, h => by
    obtain rfl := Except.ok.inj h
    exact List.prefix_rfl
  | entry :: rest, page, bytes, h => by
    simp only [pageEntries, bind_eq_ok] at h
    obtain ⟨_, -, h⟩ := h
    split at h
    · obtain rfl := Except.ok.inj h
      exact List.nil_prefix
    · simp only [bind_eq_ok] at h
      obtain ⟨more, hmore, h⟩ := h
      obtain rfl := Except.ok.inj h
      exact List.cons_prefix_cons.2 ⟨rfl, pageEntries_front hmore⟩

/-- A first page without a next one has the whole list. -/
theorem summaryPage_whole {summary page : ChangeSummary} (h : summaryPage summary 0 = .ok page) :
    page.truncated = summary.truncated ∧ page.unavailable = summary.unavailable ∧
      (page.nextOffset = none → page.entries = summary.entries) := by
  simp only [summaryPage, bind_eq_ok] at h
  obtain ⟨_, -, entries, hentries, h⟩ := h
  have hpre : entries <+: summary.entries := by
    rw [List.drop_zero] at hentries
    exact (pageEntries_front hentries).trans (List.take_prefix _ _)
  have hall : ¬0 + entries.length < summary.entries.length → entries = summary.entries :=
    fun hle => hpre.eq_of_length (Nat.le_antisymm hpre.length_le (by omega))
  split at h
  · simp only [bind_eq_ok] at h
    obtain ⟨_, -, h⟩ := h
    obtain rfl := Except.ok.inj h
    refine ⟨rfl, rfl, fun hnext => hall fun hlt => ?_⟩
    simp only [hlt, if_true, reduceCtorEq] at hnext
  · rename_i hlast
    obtain rfl := Except.ok.inj h
    exact ⟨rfl, rfl, fun _ => hall fun hlt => hlast (.inr hlt)⟩

/-- What a frozen turn reads back as: its complete list, and the data of both snapshots at the
listed paths. -/
theorem freeze_loads {requestId : String} {before after before' after' : Snapshot}
    {interrupted backgroundPending : Bool} {summary : ChangeSummary} {turn loaded : FrozenTurn}
    (hb : before.materialized svc objects₀ = .ok before')
    (ha : after.materialized svc objects₀ = .ok after')
    (hsummary : before'.compareLoaded svc objects₀ after' = .ok summary)
    (hfreeze : FrozenTurn.freezeInner svc objects₀ requestId before after interrupted
      backgroundPending = .ok (turn, objects₁))
    (hkb : Kept svc objects svc.parseSnapshot
      (before'.retain (summary.entries.map (·.path))).toJson.bytes
      (before'.retain (summary.entries.map (·.path))).stored)
    (hka : Kept svc objects svc.parseSnapshot
      (after'.retain (summary.entries.map (·.path))).toJson.bytes
      (after'.retain (summary.entries.map (·.path))).stored)
    (hks : Kept svc objects svc.parseSummary summary.toJson.bytes summary)
    (hloaded : turn.attach.materialized svc objects = .ok loaded) :
    loaded.changes.undo = .ready ∧ loaded.changes.summary.entries = summary.entries ∧
      loaded.changes.summary.truncated = summary.truncated ∧
      loaded.changes.summary.unavailable = summary.unavailable ∧
      SameData (before'.retain (summary.entries.map (·.path))) loaded.before ∧
      SameData (after'.retain (summary.entries.map (·.path))) loaded.after := by
  simp only [FrozenTurn.freezeInner, hb, ha, hsummary, bind_eq_ok, Except.ok.injEq,
    exists_eq_left'] at hfreeze
  obtain ⟨page, hpage, ⟨full, objects₂⟩, hfull, ⟨pb, objects₃⟩, hpb, ⟨pa, objects₄⟩, hpa, hturn⟩ :=
    hfreeze
  obtain ⟨rfl, -⟩ := Prod.mk.inj hturn
  simp only [FrozenTurn.materialized, FrozenTurn.full, FrozenTurn.attach, bind_eq_ok] at hloaded
  obtain ⟨list, hlist, rb, hrb, ra, hra, hloaded⟩ := hloaded
  obtain rfl := Except.ok.inj hloaded
  have hwhole : list.entries = summary.entries ∧ list.truncated = summary.truncated ∧
      list.unavailable = summary.unavailable := by
    obtain ⟨htruncated, hunavailable, hentries⟩ := summaryPage_whole hpage
    unfold SummaryData.save at hfull
    split at hfull
    · rename_i hlast
      obtain ⟨rfl, -⟩ := Prod.mk.inj (Except.ok.inj hfull)
      obtain rfl := Except.ok.inj hlist
      exact ⟨hentries (Option.isNone_iff_eq_none.1 hlast), htruncated, hunavailable⟩
    · split at hfull
      · simp only [bind_eq_ok] at hfull
        obtain ⟨⟨o, _⟩, hsave, hfull⟩ := hfull
        obtain ⟨rfl, -⟩ := Prod.mk.inj (Except.ok.inj hfull)
        have hkey : o.key = svc.sha256 summary.toJson.bytes := save_key hsave
        obtain rfl := hks.read_eq (o := o.attach) hkey hlist
        exact ⟨rfl, rfl, rfl⟩
      · obtain ⟨rfl, -⟩ := Prod.mk.inj (Except.ok.inj hfull)
        obtain rfl := Except.ok.inj hlist
        exact ⟨rfl, rfl, rfl⟩
  exact ⟨rfl, hwhole.1, hwhole.2.1, hwhole.2.2,
    persist_loads (by rw [retain_manifest, materialized_manifest hb]) (fun _ => hkb) hpb hrb,
    persist_loads (by rw [retain_manifest, materialized_manifest ha]) (fun _ => hka) hpa hra⟩

end Freeze

section Patch

variable {svc : Services} {objects objects₀ objects₁ : Objects}

/-- The object directory of a later time: it has every file of the earlier one, and a file lies
under the hash of its bytes. -/
structure LaterDirectory (svc : Services) (objects₁ objects : Objects) : Prop where
  keeps : ∀ key bytes, objects₁.lookup key = some bytes → objects.lookup key = some bytes
  hashed : ∀ key bytes, objects.lookup key = some bytes → svc.sha256 bytes = key

theorem LaterDirectory.mono (h : LaterDirectory svc objects₁ objects)
    (hkeeps : ∀ key bytes, objects₀.lookup key = some bytes → objects₁.lookup key = some bytes) :
    LaterDirectory svc objects₀ objects :=
  ⟨fun key bytes hb => h.keeps key bytes (hkeeps key bytes hb), h.hashed⟩

/-- Saving adds files only. -/
theorem save_keeps {bytes : List UInt8} {o : Object}
    (h : objects₀.save svc bytes = .ok (o, objects₁)) (key : String) (found : List UInt8)
    (hfound : objects₀.lookup key = some found) : objects₁.lookup key = some found := by
  simp only [Objects.save, bind_eq_ok] at h
  obtain ⟨_, -, h⟩ := h
  rw [← (Prod.mk.inj (Except.ok.inj h)).2]
  split
  · exact hfound
  · rw [List.lookup_append, hfound]
    rfl

/-- A record that was saved can be read. -/
theorem save_reads {α : Type} {parse : List UInt8 → Option α} {text : List UInt8} {value : α}
    {o : Object} (hsave : objects₀.save svc text = .ok (o, objects₁))
    (hlater : LaterDirectory svc objects₁ objects) (hkept : Kept svc objects parse text value) :
    o.attach.read svc objects parse = .ok value := by
  simp only [Objects.save, Object.path, bind_eq_ok, bailIf_eq_ok, orError_eq_ok, not_not] at hsave
  obtain ⟨bytes, ⟨_, hkey, _, -, found, hfound, _, hsize, -⟩, hpair⟩ := hsave
  obtain ⟨rfl, rfl⟩ := Prod.mk.inj (Except.ok.inj hpair)
  have hthere := hlater.keeps _ _ hfound
  obtain rfl := hkept.intact found hthere (hlater.hashed _ _ hthere)
  simp only [Object.read, Object.attach, Object.path, bind_eq_ok]
  exact ⟨found, ⟨(), bailIf_eq_ok.2 hkey, (), bailIf_eq_ok.2 (by simp), found,
    orError_eq_ok.2 hthere, (), bailIf_eq_ok.2 (by simp), rfl⟩, value, orError_eq_ok.2 hkept.parses,
    (), bailIf_eq_ok.2 (by simp), rfl⟩

theorem stored_attach (s : Snapshot) : s.stored.attach = s.attach := by
  have hfiles : s.stored.attach.files = s.attach.files := by
    simp only [Snapshot.stored, Snapshot.attach, List.map_map]
    refine List.map_congr_left fun ⟨path, c⟩ _ => ?_
    rcases c with _ | c
    · rfl
    · exact congrArg (fun c => (path, some c)) (attach_stored c)
  have hmanifest : s.stored.attach.manifest = s.attach.manifest := by
    rcases hm : s.manifest with _ | o <;> simp [Snapshot.stored, Snapshot.attach, hm, Object.attach]
  show { s.stored.attach with files := s.stored.attach.files, manifest := s.stored.attach.manifest } =
    s.attach
  rw [hfiles, hmanifest]
  rfl

/-- A snapshot that was compacted and stored is read back. -/
theorem persist_reads {s p : Snapshot} (hwhole : s.manifest = none)
    (hkept : s.storage = true → Kept svc objects svc.parseSnapshot s.toJson.bytes s.stored)
    (hp : s.persist svc objects₀ = .ok (p, objects₁)) (hlater : LaterDirectory svc objects₁ objects) :
    p.attach.materialized svc objects = .ok s.attach := by
  have hmanifest : s.attach.manifest = none := by simp [Snapshot.attach, hwhole]
  simp only [Snapshot.persist, hwhole, Option.isSome_none, Bool.false_eq_true, if_false] at hp
  by_cases hstorage : s.storage = true
  · simp only [hstorage, if_true, bind_eq_ok] at hp
    obtain ⟨⟨o, objects₂⟩, hsave, hp⟩ := hp
    obtain ⟨rfl, rfl⟩ := Prod.mk.inj (Except.ok.inj hp)
    have hread := save_reads hsave hlater (hkept hstorage)
    simp only [Snapshot.materialized, Snapshot.attach, Option.map_some, hread, if_true]
    show Except.ok { s.stored.attach with manifest := none } = Except.ok s.attach
    rw [stored_attach, ← hmanifest]
  · simp only [hstorage, Bool.false_eq_true, if_false] at hp
    obtain ⟨rfl, -⟩ := Prod.mk.inj (Except.ok.inj hp)
    simp only [Snapshot.materialized, hmanifest]

theorem persist_keeps {s p : Snapshot} (hp : s.persist svc objects₀ = .ok (p, objects₁))
    (key : String) (found : List UInt8) (hfound : objects₀.lookup key = some found) :
    objects₁.lookup key = some found := by
  unfold Snapshot.persist at hp
  split at hp
  · obtain ⟨-, rfl⟩ := Prod.mk.inj (Except.ok.inj hp)
    exact hfound
  · split at hp
    · simp only [bind_eq_ok] at hp
      obtain ⟨⟨o, objects₂⟩, hsave, hp⟩ := hp
      obtain ⟨-, rfl⟩ := Prod.mk.inj (Except.ok.inj hp)
      exact save_keeps hsave key found hfound
    · obtain ⟨-, rfl⟩ := Prod.mk.inj (Except.ok.inj hp)
      exact hfound

theorem saveSummary_keeps {storage : Bool} {summary page : ChangeSummary} {full : Option SummaryData}
    (h : SummaryData.save svc objects₀ storage summary page = .ok (full, objects₁))
    (key : String) (found : List UInt8) (hfound : objects₀.lookup key = some found) :
    objects₁.lookup key = some found := by
  unfold SummaryData.save at h
  split at h
  · obtain ⟨-, rfl⟩ := Prod.mk.inj (Except.ok.inj h)
    exact hfound
  · split at h
    · simp only [bind_eq_ok] at h
      obtain ⟨⟨o, objects₂⟩, hsave, h⟩ := h
      obtain ⟨-, rfl⟩ := Prod.mk.inj (Except.ok.inj h)
      exact save_keeps hsave key found hfound
    · obtain ⟨-, rfl⟩ := Prod.mk.inj (Except.ok.inj h)
      exact hfound

/-- Contents that could be read are read in the later directory. -/
theorem attach_load {c : Contents} {bytes : List UInt8}
    (hkeeps : ∀ key bytes, objects₀.lookup key = some bytes → objects.lookup key = some bytes)
    (h : c.load svc objects₀ = .ok bytes) : c.attach.load svc objects = .ok bytes := by
  cases c with
  | legacy b => exact h
  | object o =>
    simp only [Contents.load, Contents.attach, Object.checked, Object.path, Object.attach,
      bind_eq_ok, bailIf_eq_ok, orError_eq_ok] at h ⊢
    obtain ⟨found, ⟨_, hkey, _, -, b, hb, hrest⟩, hsha⟩ := h
    exact ⟨found, ⟨(), hkey, (), by simp, b, hkeeps _ _ hb, hrest⟩, hsha⟩

theorem attach_same (a b : Contents) : a.attach.same svc b.attach = a.same svc b := by
  cases a <;> cases b <;> rfl

/-- Two snapshots that were read back differ where the ones that were compared do. -/
theorem SameData.differ {b a rb ra : Snapshot} (hb : SameData b rb) (ha : SameData a ra)
    (path : String) : rb.differ svc ra path = b.differ svc a path := by
  rw [Snapshot.differ, Snapshot.differ, hb.contents, ha.contents]
  rcases b.contents path with _ | c <;> rcases a.contents path with _ | d <;>
    simp [attach_same]

theorem SameData.bytesAt {s r : Snapshot} (h : SameData s r)
    (hkeeps : ∀ key bytes, objects₀.lookup key = some bytes → objects.lookup key = some bytes)
    {path : String} {bytes : Option (List UInt8)} (hbytes : s.bytesAt svc objects₀ path = .ok bytes) :
    r.bytesAt svc objects path = .ok bytes := by
  have hr := h.contents path
  rcases hc : s.contents path with _ | c <;> rw [hc] at hr
  · rw [Snapshot.bytesAt_of_none hc] at hbytes
    rw [Snapshot.bytesAt_of_none hr, hbytes]
  · rw [Snapshot.bytesAt_of_some hc, map_eq_ok] at hbytes
    obtain ⟨b, hb, rfl⟩ := hbytes
    rw [Snapshot.bytesAt_of_some hr, attach_load hkeeps hb]
    rfl

theorem retain_bytesAt {s : Snapshot} {listed : List String} {path : String} (hp : path ∈ listed) :
    (s.retain listed).bytesAt svc objects path = s.bytesAt svc objects path := by
  rw [Snapshot.bytesAt, Snapshot.bytesAt, retain_contents, if_pos hp]

theorem retain_differ {b a : Snapshot} {listed : List String} {path : String} (hp : path ∈ listed) :
    (b.retain listed).differ svc (a.retain listed) path = b.differ svc a path := by
  rw [Snapshot.differ, Snapshot.differ, retain_contents, retain_contents, if_pos hp, if_pos hp]

/-- A frozen turn can be read back from a later directory. -/
theorem freeze_reads {requestId : String} {before after before' after' : Snapshot}
    {interrupted backgroundPending : Bool} {summary : ChangeSummary} {turn : FrozenTurn}
    (hb : before.materialized svc objects₀ = .ok before')
    (ha : after.materialized svc objects₀ = .ok after')
    (hsummary : before'.compareLoaded svc objects₀ after' = .ok summary)
    (hfreeze : FrozenTurn.freezeInner svc objects₀ requestId before after interrupted
      backgroundPending = .ok (turn, objects₁))
    (hlater : LaterDirectory svc objects₁ objects)
    (hkb : Kept svc objects svc.parseSnapshot
      (before'.retain (summary.entries.map (·.path))).toJson.bytes
      (before'.retain (summary.entries.map (·.path))).stored)
    (hka : Kept svc objects svc.parseSnapshot
      (after'.retain (summary.entries.map (·.path))).toJson.bytes
      (after'.retain (summary.entries.map (·.path))).stored)
    (hks : Kept svc objects svc.parseSummary summary.toJson.bytes summary) :
    LaterDirectory svc objects₀ objects ∧ ∃ loaded, turn.attach.materialized svc objects = .ok loaded ∧
      loaded.before.unavailable = before'.unavailable ∧
      loaded.after.unavailable = after'.unavailable := by
  simp only [FrozenTurn.freezeInner, hb, ha, hsummary, bind_eq_ok, Except.ok.injEq,
    exists_eq_left'] at hfreeze
  obtain ⟨page, hpage, ⟨full, objects₂⟩, hfull, ⟨pb, objects₃⟩, hpb, ⟨pa, objects₄⟩, hpa, hturn⟩ :=
    hfreeze
  obtain ⟨rfl, rfl⟩ := Prod.mk.inj hturn
  have hlater₃ := hlater.mono (persist_keeps hpa)
  have hlater₂ := hlater₃.mono (persist_keeps hpb)
  have hrb := persist_reads (by rw [retain_manifest, materialized_manifest hb]) (fun _ => hkb) hpb
    hlater₃
  have hra := persist_reads (by rw [retain_manifest, materialized_manifest ha]) (fun _ => hka) hpa
    hlater
  obtain ⟨list, hlist⟩ : ∃ list, FrozenTurn.full svc objects
      { fullSummary := full.map SummaryData.attach
        changes := { requestId, summary := page, interrupted, backgroundPending, undo := .ready }
        before := before', after := after' } = .ok list := by
    unfold SummaryData.save at hfull
    split at hfull
    · obtain ⟨rfl, -⟩ := Prod.mk.inj (Except.ok.inj hfull)
      exact ⟨page, rfl⟩
    · split at hfull
      · simp only [bind_eq_ok] at hfull
        obtain ⟨⟨o, _⟩, hsave, hfull⟩ := hfull
        obtain ⟨rfl, rfl⟩ := Prod.mk.inj (Except.ok.inj hfull)
        exact ⟨summary, save_reads hsave hlater₂ hks⟩
      · obtain ⟨rfl, -⟩ := Prod.mk.inj (Except.ok.inj hfull)
        exact ⟨summary, rfl⟩
  refine ⟨hlater₂.mono (saveSummary_keeps hfull), { 
      fullSummary := full.map SummaryData.attach
      changes := { requestId, summary := list, interrupted, backgroundPending, undo := .ready }
      before := (before'.retain (summary.entries.map (·.path))).attach
      after := (after'.retain (summary.entries.map (·.path))).attach }, ?_, rfl, rfl⟩
  simp only [FrozenTurn.materialized, FrozenTurn.full, FrozenTurn.attach, bind_eq_ok]
  exact ⟨list, hlist, _, hrb, _, hra, rfl⟩

/-- Between two snapshots that have all their paths, there is a patch of each path at which they
differ. -/
theorem patchLoaded_whole {before after : Snapshot}
    {diff : String → Option (List UInt8) → Option (List UInt8) → Except String (String × Bool)}
    {path : String} (hvalid : validatePath path = .ok ()) (hbefore : before.unavailable = none)
    (hafter : after.unavailable = none) (hwhole : before.truncated = false)
    (hwhole' : after.truncated = false) :
    before.patchLoaded svc objects diff after path =
      if before.differ svc after path then do
        let old ← before.bytesAt svc objects path
        let new ← after.bytesAt svc objects path
        diff path old new
      else .error "文件不属于本轮已记录的变更" := by
  simp only [Snapshot.patchLoaded, hvalid, hbefore, hafter, hwhole, hwhole', Option.or_none,
    Bool.false_eq_true, and_false, or_false]
  by_cases hdiff : before.differ svc after path = true
  · rw [if_pos hdiff, bailIf_pass (by simpa using hdiff)]
    rfl
  · rw [if_neg hdiff, bailIf_error (by simpa using hdiff)]
    rfl

/-- A patch of a turn that can be read back. -/
theorem patch_of_materialized {t loaded : FrozenTurn}
    {diff : String → Option (List UInt8) → Option (List UInt8) → Except String (String × Bool)}
    {path : String} (h : t.materialized svc objects = .ok loaded)
    (hvalid : validatePath path = .ok ()) (hbefore : loaded.before.unavailable = none)
    (hafter : loaded.after.unavailable = none) :
    t.patch svc objects diff path =
      if path ∈ loaded.changes.summary.entries.map (·.path) ∧
          loaded.before.differ svc loaded.after path then do
        let old ← loaded.before.bytesAt svc objects path
        let new ← loaded.after.bytesAt svc objects path
        diff path old new
      else .error "文件不属于本轮已记录的变更" := by
  simp only [FrozenTurn.materialized, bind_eq_ok] at h
  obtain ⟨full, hfull, before, hb, after, ha, h⟩ := h
  obtain rfl := Except.ok.inj h
  have hmem : (full.entries.any (·.path = path)) = true ↔ path ∈ full.entries.map (·.path) := by
    simp
  simp only [FrozenTurn.patch, hvalid, hfull, hb, ha]
  by_cases hlisted : path ∈ full.entries.map (·.path)
  · simp only [hlisted, true_and]
    exact (bailIf_pass (not_not.2 (hmem.2 hlisted))).trans
      (patchLoaded_whole hvalid hbefore hafter rfl rfl)
  · simp only [hlisted, false_and, if_false]
    exact bailIf_error (mt hmem.1 hlisted)

end Patch

/-- Comparing two available snapshots of one root. The comparison succeeds when the contents that
differ can be read and Git counts the lines. Its list has exactly the paths whose recorded contents
differ, in order and once each, with what became of them, but for those a truncated snapshot
misses, and then it is truncated itself. The frozen turn, read back from a later object directory,
has a patch for exactly the listed paths: the difference of the bytes that were compared. -/
theorem change_lists (svc : Services) (objects₀ : Objects) (before after before' after' : Snapshot)
    (hb : before.materialized svc objects₀ = .ok before')
    (ha : after.materialized svc objects₀ = .ok after') (hbefore : before'.unavailable = none)
    (hafter : after'.unavailable = none) (hroot : before'.rootIdentity = after'.rootIdentity)
    (hvalid : ∀ path, (before'.contents path).isSome ∨ (after'.contents path).isSome →
      validatePath path = .ok ()) :
    ((∀ path, before'.Changed svc after' path →
        (∃ old, before'.bytesAt svc objects₀ path = .ok old) ∧
          ∃ new, after'.bytesAt svc objects₀ path = .ok new) →
      (∀ files, ∃ stats, svc.numstat files = .ok stats) →
      ∃ summary, before'.compareLoaded svc objects₀ after' = .ok summary) ∧
    ∀ summary, before'.compareLoaded svc objects₀ after' = .ok summary →
      (∀ path status, (∃ e ∈ summary.entries, e.path = path ∧ e.status = status) ↔
        before'.differ svc after' path = true ∧ ¬before'.Misses path ∧ ¬after'.Misses path ∧
          status = before'.statusOf after' path) ∧
      (summary.entries.map (·.path)).Pairwise (· < ·) ∧
      ((∃ path, before'.differ svc after' path = true ∧
        (before'.Misses path ∨ after'.Misses path)) → summary.truncated = true) ∧
      ∀ requestId interrupted backgroundPending turn objects₁ objects,
        FrozenTurn.freezeInner svc objects₀ requestId before after interrupted backgroundPending =
          .ok (turn, objects₁) →
        LaterDirectory svc objects₁ objects →
        Kept svc objects svc.parseSnapshot
          (before'.retain (summary.entries.map (·.path))).toJson.bytes
          (before'.retain (summary.entries.map (·.path))).stored →
        Kept svc objects svc.parseSnapshot
          (after'.retain (summary.entries.map (·.path))).toJson.bytes
          (after'.retain (summary.entries.map (·.path))).stored →
        Kept svc objects svc.parseSummary summary.toJson.bytes summary →
        ∀ diff path,
          (path ∈ summary.entries.map (·.path) → ∃ old new,
            before'.bytesAt svc objects₀ path = .ok old ∧
            after'.bytesAt svc objects₀ path = .ok new ∧
            turn.attach.patch svc objects diff path = diff path old new) ∧
          (path ∉ summary.entries.map (·.path) →
            ∃ e, turn.attach.patch svc objects diff path = .error e) := by
  refine ⟨Snapshot.compareLoaded_succeeds hroot, fun summary hsummary => ?_⟩
  have hlists := Snapshot.compareLoaded_lists hbefore hafter hsummary
  have hpaths : summary.entries.map (·.path) =
      (before'.paths after').filter (before'.Changed svc after' ·) := by
    have := congrArg (List.map (·.1)) hlists.listed
    simpa [Snapshot.listed, List.map_map, Function.comp_def] using this
  have hmem (path : String) :
      path ∈ summary.entries.map (·.path) ↔ before'.Changed svc after' path := by
    rw [hpaths, List.mem_filter, decide_eq_true_eq]
    exact ⟨fun h => h.2, fun h => ⟨Snapshot.mem_paths_of_differ h.1, h⟩⟩
  refine ⟨fun path status => ?_, ?_, fun ⟨path, _, hmisses⟩ =>
    hlists.truncated (hmisses.imp (·.1) (·.1)), ?_⟩
  · have hentry : (∃ e ∈ summary.entries, e.path = path ∧ e.status = status) ↔
        (path, status) ∈ Snapshot.listed summary := by
      simp [Snapshot.listed]
    rw [hentry, hlists.listed, List.mem_map]
    constructor
    · rintro ⟨p, hp, heq⟩
      obtain ⟨rfl, rfl⟩ := Prod.mk.inj heq
      have hchanged := (hmem p).1 (hpaths ▸ hp)
      exact ⟨hchanged.1, hchanged.2.1, hchanged.2.2, rfl⟩
    · rintro ⟨hdiff, hb, ha, rfl⟩
      exact ⟨path, hpaths ▸ (hmem path).2 ⟨hdiff, hb, ha⟩, rfl⟩
  · rw [hpaths]
    exact Snapshot.paths_ordered.filter _
  · intro requestId interrupted backgroundPending turn objects₁ objects hfreeze hlater hkb hka hks
      diff path
    obtain ⟨hdirectory, loaded, hloaded, hub, hua⟩ :=
      freeze_reads hb ha hsummary hfreeze hlater hkb hka hks
    obtain ⟨-, hentries, -, -, hsb, hsa⟩ := freeze_loads hb ha hsummary hfreeze hkb hka hks hloaded
    rw [hbefore] at hub
    rw [hafter] at hua
    refine ⟨fun hlisted => ?_, fun hnot => ?_⟩
    · have hchanged := (hmem path).1 hlisted
      obtain ⟨⟨old, hold⟩, new, hnew⟩ := hlists.read path hchanged
      have hpath : validatePath path = .ok () :=
        hvalid path (Snapshot.contents_of_differ hchanged.1)
      refine ⟨old, new, hold, hnew, ?_⟩
      rw [patch_of_materialized hloaded hpath hub hua, hentries, hsb.differ hsa,
        retain_differ hlisted, if_pos ⟨hlisted, hchanged.1⟩,
        hsb.bytesAt hdirectory.keeps ((retain_bytesAt hlisted).trans hold),
        hsa.bytesAt hdirectory.keeps ((retain_bytesAt hlisted).trans hnew)]
      rfl
    · rcases hpath : validatePath path with e | u
      · exact ⟨e, by simp only [FrozenTurn.patch, hpath]; rfl⟩
      · refine ⟨_, (patch_of_materialized hloaded hpath hub hua).trans (if_neg ?_)⟩
        rw [hentries]
        exact fun h => hnot h.1

/-! ### A turn that wrote `b` over `a` -/

def shaOfA : String := "ca978112ca1bbdcafac231b39a23dc4da786eff8147c4e72b9807785afee48bb"
def shaOfB : String := "3e23e8160039594a33894f6564e1b1348bbd7a0088d42c4acb73eeaed59c009d"
def shaOfBefore : String := "5f7eeca06bfbe41d941da0fcf78c00ba25c8637b7974fefdede74f769e870a48"
def shaOfAfter : String := "e0c0a88bc9e7c53b6fb194934f848e9acd11960e9cfae879c0fe6f1c97f3d21e"

/-- A worktree with one file, `d/f`. -/
def oneFile (atMs : ℕ) (sha : String) : Snapshot where
  atMs := atMs
  rootIdentity := some (1, 2)
  files := [("d/f", some (.object { key := sha, size := 1, attached := true }))]
  storage := true
  modes := [("d/f", 0o100644)]

def editSummary : ChangeSummary where
  entries := [{ path := "d/f", status := "M", added := some 1, removed := some 1 }]
  added := 1
  removed := 1
  baselineAt := some 1

/-- The external code on the inputs of this turn. The texts of its two snapshots have 191 bytes, and
the seventh is the digit of their time. -/
def editServices : Services where
  sha256
    | [97] => shaOfA
    | [98] => shaOfB
    | text =>
      if text.length ≠ 191 then "" else if text[6]? = some 49 then shaOfBefore else shaOfAfter
  parseSnapshot text :=
    if text[6]? = some 49 then some (oneFile 1 shaOfA).stored else some (oneFile 2 shaOfB).stored
  parseSummary _ := some editSummary
  numstat _ := .ok ([(0, some 1, some 1)], false)

def contentObjects : Objects := [(shaOfA, [97]), (shaOfB, [98])]

def editObjects : Objects :=
  contentObjects ++ [(shaOfBefore, (oneFile 1 shaOfA).toJson.bytes),
    (shaOfAfter, (oneFile 2 shaOfB).toJson.bytes)]

def compacted (atMs : ℕ) (sha : String) : Snapshot where
  atMs := atMs
  manifest := some { key := sha, size := 191, attached := true }
  storage := true
  unavailable := some "快照使用独立存储，请使用新版 Server 读取。"

def editTurn : FrozenTurn where
  changes := { requestId := "r", summary := editSummary, interrupted := false
               backgroundPending := false, undo := .ready }
  before := compacted 1 shaOfBefore
  after := compacted 2 shaOfAfter

theorem editTurn_frozen : FrozenTurn.freezeInner editServices contentObjects "r" (oneFile 1 shaOfA)
    (oneFile 2 shaOfB) false false = .ok (editTurn, editObjects) := by
  decide +kernel

theorem editObjects_hashed : ∀ e ∈ editObjects, editServices.sha256 e.2 = e.1 := by
  decide +kernel

/-- The edit is listed, and `d/f` has a patch from `a` to `b`. -/
theorem change_lists_edit :
    (editSummary.entries.map (·.path)).Pairwise (· < ·) ∧
    ∀ diff path,
      (path ∈ editSummary.entries.map (·.path) → ∃ old new,
        (oneFile 1 shaOfA).bytesAt editServices contentObjects path = .ok old ∧
        (oneFile 2 shaOfB).bytesAt editServices contentObjects path = .ok new ∧
        editTurn.attach.patch editServices editObjects diff path = diff path old new) ∧
      (path ∉ editSummary.entries.map (·.path) →
        ∃ e, editTurn.attach.patch editServices editObjects diff path = .error e) := by
  have hvalid (path : String) (h : ((oneFile 1 shaOfA).contents path).isSome ∨
      ((oneFile 2 shaOfB).contents path).isSome) : validatePath path = .ok () := by
    have hpath : path = "d/f" := by
      by_contra hne
      have hlookup : (path == "d/f") = false := beq_eq_false_iff_ne.2 hne
      simp [Snapshot.contents, oneFile, List.lookup_cons, hlookup] at h
    subst hpath
    decide +kernel
  have hlists := (change_lists editServices contentObjects (oneFile 1 shaOfA) (oneFile 2 shaOfB)
    (oneFile 1 shaOfA) (oneFile 2 shaOfB) rfl rfl rfl rfl rfl hvalid).2 editSummary
    (by decide +kernel)
  exact ⟨hlists.2.1, hlists.2.2.2 "r" false false editTurn editObjects editObjects editTurn_frozen
    ⟨fun _ _ h => h, fun key bytes h => editObjects_hashed (key, bytes) (Assoc.mem_of_lookup h)⟩
    (kept_of_lookup (by decide +kernel) (by decide +kernel))
    (kept_of_lookup (by decide +kernel) (by decide +kernel))
    (kept_of_lookup (by decide +kernel) (by decide +kernel))⟩

end LatteWork
