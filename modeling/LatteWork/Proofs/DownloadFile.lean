import LatteWork.Desktop.Downloads
import LatteWork.Proofs.JsonReading

/-!
# What the downloads keep

Every record in memory or in the file is `Sound`: its id is one that was given out, and a completed
one was copied to its path. The file holds what is in memory, but for what a restart makes of it
(`reopened`), so `restore` takes it unless an address or the whole is too long. A task is about a
record that no restart interrupted.
-/

namespace LatteWork

namespace Downloads

open Fallible (bailIf orError)
open Prog (wp)

/-! ### The file -/

namespace Stored

theorem ofJson_toJson (r : Stored) : ofJson r.toJson = some r := by
  obtain ⟨id, name, url, status, path, error⟩ := r
  cases path <;> cases error <;> rfl

theorem textual_toJson (r : Stored) : r.toJson.Textual := by
  obtain ⟨id, name, url, status, path, error⟩ := r
  cases path <;> cases error <;> simp [toJson, Json.Textual, Json.TextualFields, Json.opt]

theorem textualItems_map : ∀ records : List Stored, Json.TextualItems (records.map toJson)
  | [] => trivial
  | r :: records => ⟨textual_toJson r, textualItems_map records⟩

theorem mapM_ofJson : ∀ records : List Stored, (records.map toJson).mapM ofJson = some records
  | [] => rfl
  | r :: records => by
    rw [List.map_cons, List.mapM_cons, ofJson_toJson, mapM_ofJson records]
    rfl

end Stored

theorem fromSlice_render (records : List Stored) :
    fromSlice (Json.arr (records.map Stored.toJson)).render = some records := by
  have hparse : Json.parse (Json.arr (records.map Stored.toJson)).render.toList =
      some (Json.arr (records.map Stored.toJson)) :=
    Json.parse_render (v := .arr _) (Stored.textualItems_map records)
  rw [fromSlice, hparse]
  exact Stored.mapM_ofJson records

theorem ofName_name (status : Status) : Status.ofName status.name = some status := by
  cases status <;> decide

/-- What a restart makes of a record. -/
def Download.reopened (item : Download) : Download :=
  if item.status.active then
    { item with status := .interrupted, error := some "应用退出时下载尚未完成", temporary := none }
  else { item with temporary := none }

section reopened

variable (item : Download)

@[simp]
theorem reopened_id : item.reopened.id = item.id := by
  unfold Download.reopened
  split_ifs <;> rfl

@[simp]
theorem reopened_name : item.reopened.name = item.name := by
  unfold Download.reopened
  split_ifs <;> rfl

@[simp]
theorem reopened_url : item.reopened.url = item.url := by
  unfold Download.reopened
  split_ifs <;> rfl

@[simp]
theorem reopened_path : item.reopened.path = item.path := by
  unfold Download.reopened
  split_ifs <;> rfl

@[simp]
theorem reopened_temporary : item.reopened.temporary = none := by
  unfold Download.reopened
  split_ifs <;> rfl

theorem reopened_status :
    item.reopened.status = if item.status.active then .interrupted else item.status := by
  unfold Download.reopened
  split_ifs <;> rfl

@[simp]
theorem reopened_inactive : item.reopened.status.active = false := by
  rw [reopened_status]
  split_ifs with h
  · rfl
  · simpa using h

@[simp]
theorem reopened_reopened : item.reopened.reopened = item.reopened := by
  have h := reopened_inactive item
  conv_lhs => rw [Download.reopened]
  rw [if_neg (by simp [h]), ← reopened_temporary item]

end reopened

/-- What `restore` asks of a record besides the length of its address. -/
structure WellFormed (app : App) (item : Download) : Prop where
  uuid : app.parseUuid item.id = true
  name : item.name.length ≤ 180
  path : ∀ path, item.path = some path → ∃ p, path = .utf8 p ∧ path.isAbsolute = true

/-- The record that is written of a well-formed one. -/
def Download.record (item : Download) : Stored :=
  ⟨item.id, item.name, item.url, item.status.name, item.path.bind PathBuf.toStr, item.error⟩

theorem stored_eq {item : Download} {r : Stored} (h : item.stored = .ok r) : r = item.record := by
  unfold Download.stored at h
  unfold Download.record
  rcases hpath : item.path with _ | path
  · rw [hpath] at h
    exact (Except.ok.inj h).symm
  · rw [hpath] at h
    cases path with
    | utf8 p => exact (Except.ok.inj h).symm
    | bytes p => exact absurd h (by simp [PathBuf.toStr, orError, bind, Except.bind])

variable {app : App}

theorem WellFormed.stored {item : Download} (h : WellFormed app item) :
    item.stored = .ok item.record := by
  unfold Download.stored Download.record
  rcases hpath : item.path with _ | path
  · rfl
  · obtain ⟨p, rfl, -⟩ := h.path path hpath
    rfl

theorem restoreItem_record {item : Download} (h : WellFormed app item) :
    restoreItem app item.record =
      if item.url.utf8ByteSize ≤ 8192 then .ok item.reopened else .error "下载记录无效" := by
  have hpath : (item.path.bind PathBuf.toStr).map PathBuf.utf8 = item.path := by
    rcases hp : item.path with _ | path
    · rfl
    · obtain ⟨p, rfl, -⟩ := h.path path hp
      rfl
  have habs : ¬item.path.any (!·.isAbsolute) = true := by
    rcases hp : item.path with _ | path
    · simp
    · obtain ⟨p, rfl, habs⟩ := h.path path hp
      simp [habs]
  have hname := h.name
  unfold restoreItem Download.record
  by_cases hurl : item.url.utf8ByteSize ≤ 8192
  · have hok : ¬(app.parseUuid item.id = false ∨ 180 < item.name.length ∨
        8192 < item.url.utf8ByteSize) := by
      rw [h.uuid]
      simp only [Bool.true_eq_false, false_or]
      omega
    rw [if_pos hurl, bailIf, if_neg hok, ofName_name]
    simp only [hpath, bailIf, if_neg habs, Download.reopened]
    by_cases hactive : item.status.active = true
    · simp [hactive, orError, bind, Except.bind]
    · simp [hactive, orError, bind, Except.bind]
  · have hbad : app.parseUuid item.id = false ∨ 180 < item.name.length ∨
        8192 < item.url.utf8ByteSize := .inr (.inr (Nat.lt_of_not_le hurl))
    rw [if_neg hurl, bailIf, if_pos hbad]
    rfl

theorem mapM_stored : ∀ {items : List Download} {records : List Stored},
    items.mapM Download.stored = .ok records → records = items.map Download.record
  | [], records, h => (Except.ok.inj h).symm
  | item :: items, records, h => by
    rw [List.mapM_cons] at h
    obtain ⟨r, hr, h⟩ := Fallible.bind_eq_ok.1 h
    obtain ⟨rs, hrs, h⟩ := Fallible.bind_eq_ok.1 h
    rw [← Except.ok.inj h, stored_eq hr, mapM_stored hrs, List.map_cons]

theorem toVec_eq {items : List Download} {text : String} (h : toVec items = .ok text) :
    text = (Json.arr ((items.map Download.record).map Stored.toJson)).render := by
  obtain ⟨records, hrecords, h⟩ := Fallible.bind_eq_ok.1 h
  rw [← Except.ok.inj h, mapM_stored hrecords]

theorem mapM_restoreItem : ∀ {items loaded : List Download}, (∀ item ∈ items, WellFormed app item) →
    ((items.map Download.record).mapM (restoreItem app) = .ok loaded ↔
      (∀ item ∈ items, item.url.utf8ByteSize ≤ 8192) ∧ loaded = items.map Download.reopened)
  | [], loaded, _ => by simp [pure, Except.pure, eq_comm]
  | item :: items, loaded, h => by
    have ih : ∀ rest, (items.map Download.record).mapM (restoreItem app) = .ok rest ↔ _ := fun rest =>
      mapM_restoreItem fun x hx => h x (List.mem_cons_of_mem _ hx)
    rw [List.map_cons, List.mapM_cons, restoreItem_record (h item List.mem_cons_self),
      Fallible.bind_eq_ok]
    simp only [Fallible.bind_eq_ok, ih, List.forall_mem_cons, List.map_cons]
    constructor
    · rintro ⟨first, hfirst, rest, ⟨hurls, rfl⟩, hloaded⟩
      split_ifs at hfirst with hurl
      obtain rfl := Except.ok.inj hfirst
      exact ⟨⟨hurl, hurls⟩, (Except.ok.inj hloaded).symm⟩
    · rintro ⟨⟨hurl, hurls⟩, rfl⟩
      exact ⟨_, if_pos hurl, _, ⟨hurls, rfl⟩, rfl⟩

/-- What was written is taken, unless an address is too long. -/
theorem restore_iff {items loaded : List Download} {text : String} (h : toVec items = .ok text)
    (hwell : ∀ item ∈ items, WellFormed app item) (hlen : items.length ≤ limit) :
    restore app text = .ok loaded ↔
      (∀ item ∈ items, item.url.utf8ByteSize ≤ 8192) ∧ loaded = items.map Download.reopened := by
  have hcount : bailIf (limit < (items.map Download.record).length) "下载记录过多" = .ok () := by
    refine if_neg ?_
    rw [List.length_map]
    omega
  have hrun : restore app text = (items.map Download.record).mapM (restoreItem app) := by
    unfold restore
    rw [toVec_eq h, fromSlice_render]
    show (bailIf _ _ >>= fun _ => _) = _
    rw [hcount]
    rfl
  rw [hrun, mapM_restoreItem hwell]

end Downloads

end LatteWork
