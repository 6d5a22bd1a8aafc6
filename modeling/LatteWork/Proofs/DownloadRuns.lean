import LatteWork.Proofs.DownloadFile
import Mathlib.Data.List.Nodup

/-!
# Runs of the downloads

What a change may do to the state is said once (`change_spec`), and what an edit does to the list
once for each edit. The invariant of a run follows: what is listed is sound, and the file holds
what a restart would make of the list.
-/

namespace LatteWork

namespace Downloads

open Fallible (bailIf orError)
open Prog (wp)

/-! ### Edits -/

section edits

variable {p : Download → Bool} {f : Download → Download} {items : List Download}

theorem editFirst_spec {r : Download × List Download} (h : editFirst p f items = some r) :
    ∃ front item back, items = front ++ item :: back ∧ p item = true ∧
      r = (f item, front ++ f item :: back) := by
  induction items generalizing r with
  | nil => simp [editFirst] at h
  | cons x items ih =>
    unfold editFirst at h
    split_ifs at h with hx
    · exact ⟨[], x, items, rfl, hx, (Option.some.inj h).symm⟩
    · obtain ⟨rest, hrest, h⟩ := Option.map_eq_some_iff.1 h
      obtain ⟨front, item, back, rfl, hp, rfl⟩ := ih hrest
      exact ⟨x :: front, item, back, rfl, hp, h.symm⟩

theorem editFirst_none : editFirst p f items = none ↔ ∀ x ∈ items, p x = false := by
  induction items with
  | nil => simp [editFirst]
  | cons x items ih =>
    unfold editFirst
    split_ifs with hx
    · simp [hx]
    · simp [ih, hx]

theorem dropOldest_spec : ∀ {n : ℕ} {items kept : List Download}, dropOldest n items = .ok kept →
    kept.Sublist items ∧ kept.filter (·.status.active) = items.filter (·.status.active) ∧
      kept.length + n = items.length
  | 0, items, kept, h => by
    obtain rfl := Except.ok.inj h
    exact ⟨List.Sublist.refl _, rfl, rfl⟩
  | n + 1, items, kept, h => by
    unfold dropOldest at h
    split_ifs at h with hany
    obtain ⟨x, hx, hinactive⟩ := List.any_eq_true.1 hany
    obtain ⟨a, front, back, -, ha, rfl, herase⟩ :=
      List.exists_of_eraseP (p := fun x : Download => !x.status.active) hx hinactive
    obtain ⟨hsub, hactive, hlen⟩ := dropOldest_spec h
    rw [herase] at hsub hactive hlen
    have hdrop : (front ++ back).Sublist (front ++ a :: back) :=
      (List.sublist_cons_self a back).append_left front
    refine ⟨hsub.trans hdrop, ?_, ?_⟩
    · have ha : a.status.active = false := by simpa using ha
      rw [hactive]
      simp [List.filter_append, ha]
    · rw [List.length_append] at hlen
      rw [List.length_append, List.length_cons]
      omega

theorem safeName_length (value : String) : (safeName value).length ≤ 180 := by
  unfold safeName
  dsimp only
  split_ifs
  · decide
  · rw [String.length_ofList]
    exact List.length_take_le _ _

end edits

/-! ### The invariant -/

variable {app : App} {ids : List String} {copies : List (PathBuf × PathBuf)}

/-- A record whose id was given out, and which was copied to its path if it is completed. -/
structure Sound (app : App) (ids : List String) (copies : List (PathBuf × PathBuf))
    (item : Download) : Prop extends WellFormed app item where
  issued : item.id ∈ ids
  active : item.status.active = true → item.temporary = some (app.partFile item.id)
  own : ∀ path, item.temporary = some path → path = app.partFile item.id
  copied : item.status = .completed →
    ∃ path, item.path = some path ∧ (app.partFile item.id, path) ∈ copies

structure Listed (app : App) (ids : List String) (copies : List (PathBuf × PathBuf))
    (items : List Download) : Prop where
  sound : ∀ item ∈ items, Sound app ids copies item
  nodup : (items.map (·.id)).Nodup
  length_le : items.length ≤ limit
  active_le : (items.filter (·.status.active)).length ≤ 4
  urls : ((items.filter (·.status = .downloading)).map (·.url)).Nodup

theorem Sound.mono {ids' : List String} {copies' : List (PathBuf × PathBuf)} {item : Download}
    (h : Sound app ids copies item) (hids : ids ⊆ ids') (hcopies : copies ⊆ copies') :
    Sound app ids' copies' item where
  toWellFormed := h.toWellFormed
  issued := hids h.issued
  active := h.active
  own := h.own
  copied hs := by
    obtain ⟨path, hpath, hcopied⟩ := h.copied hs
    exact ⟨path, hpath, hcopies hcopied⟩

theorem Listed.mono {ids' : List String} {copies' : List (PathBuf × PathBuf)}
    {items : List Download} (h : Listed app ids copies items) (hids : ids ⊆ ids')
    (hcopies : copies ⊆ copies') : Listed app ids' copies' items :=
  { h with sound := fun item hitem => (h.sound item hitem).mono hids hcopies }

theorem listed_nil : Listed app ids copies [] :=
  ⟨by simp, by simp, by simp, by simp, by simp⟩

/-- Fewer records are sound as they were. -/
theorem Listed.sublist {items kept : List Download} (h : Listed app ids copies items)
    (hsub : kept.Sublist items) : Listed app ids copies kept where
  sound item hitem := h.sound item (hsub.subset hitem)
  nodup := h.nodup.sublist (hsub.map _)
  length_le := hsub.length_le.trans h.length_le
  active_le := (hsub.filter _).length_le.trans h.active_le
  urls := h.urls.sublist ((hsub.filter _).map _)

theorem Sound.reopened {item : Download} (h : Sound app ids copies item) :
    Sound app ids copies item.reopened where
  uuid := by simpa using h.uuid
  name := by simpa using h.name
  path := by simpa using h.path
  issued := by simpa using h.issued
  active ha := by simp at ha
  own := by simp
  copied hs := by
    rw [reopened_status] at hs
    split_ifs at hs
    simpa using h.copied hs

theorem Listed.reopened {items : List Download} (h : Listed app ids copies items) :
    Listed app ids copies (items.map Download.reopened) where
  sound item hitem := by
    obtain ⟨x, hx, rfl⟩ := List.mem_map.1 hitem
    exact (h.sound x hx).reopened
  nodup := by
    rw [List.map_map]
    simpa [Function.comp_def] using h.nodup
  length_le := by simpa using h.length_le
  active_le := by simp [List.filter_map, Function.comp_def]
  urls := by
    have hnone : ∀ x : Download, ¬x.reopened.status = .downloading := fun x hx => by
      have := reopened_inactive x
      rw [hx] at this
      exact absurd this (by decide)
    simp [List.filter_map, Function.comp_def, hnone]

/-- One record changes, and does not become active. -/
theorem Listed.update {front back : List Download} {item item' : Download}
    (h : Listed app ids copies (front ++ item :: back)) (hid : item'.id = item.id)
    (hactive : item'.status.active = true → item.status.active = true)
    (hdown : item'.status ≠ .downloading) (hsound : Sound app ids copies item') :
    Listed app ids copies (front ++ item' :: back) where
  sound x hx := by
    rcases List.mem_append.1 hx with hx | hx
    · exact h.sound x (List.mem_append_left _ hx)
    · rcases List.mem_cons.1 hx with rfl | hx
      · exact hsound
      · exact h.sound x (List.mem_append_right _ (List.mem_cons_of_mem _ hx))
  nodup := by simpa [hid] using h.nodup
  length_le := by simpa using h.length_le
  active_le := by
    refine le_trans ?_ h.active_le
    simp only [List.filter_append, List.filter_cons, List.length_append]
    split_ifs with h₁ h₂
    · simp
    · exact absurd (hactive h₁) h₂
    · simp
    · simp
  urls := by
    refine h.urls.sublist (List.Sublist.map _ ?_)
    simp only [List.filter_append, List.filter_cons, hdown, decide_false, Bool.false_eq_true, if_false]
    refine List.Sublist.append_left ?_ _
    split_ifs
    · exact List.sublist_cons_self _ _
    · exact List.Sublist.refl _

section edits

variable {id url : String} {fileName : Option String} {directory : Except String Unit}
  {items next : List Download} {path : Option PathBuf} {success : Bool}

/-- The record of a new download. -/
def begun (app : App) (id name url : String) : Download where
  id := id
  name := name
  url := url
  status := .downloading
  path := none
  error := none
  temporary := some (app.partFile id)

theorem requested_spec {u : Unit}
    (h : requested app id url fileName directory items = .ok (u, next)) :
    ∃ kept name, name.length ≤ 180 ∧ kept.Sublist items ∧
      kept.filter (·.status.active) = items.filter (·.status.active) ∧
      kept.length + (items.length + 1 - limit) = items.length ∧
      (items.filter (·.status.active)).length < 4 ∧
      (∀ item ∈ items, item.status = .downloading → item.url ≠ url) ∧
      next = kept ++ [begun app id name url] := by
  unfold requested at h
  simp only [Fallible.bind_eq_ok, Fallible.bailIf_eq_ok] at h
  obtain ⟨-, hcount, -, hsame, -, -, -, -, kept, hkept, h⟩ := h
  obtain ⟨hsub, hactive, hlen⟩ := dropOldest_spec hkept
  refine ⟨kept, _, safeName_length (fileName.getD "下载文件"), hsub, hactive, hlen,
    Nat.lt_of_not_le hcount, fun item hitem hdown hurl => hsame ⟨item, hitem, hdown, hurl⟩, ?_⟩
  exact (Prod.mk.inj (Except.ok.inj h)).2.symm

theorem finished_spec {r : Download × List Download} (h : finished url path success items = .ok r) :
    ∃ front item back, items = front ++ item :: back ∧ finishes url path item = true ∧
      r = (item.ended success, front ++ item.ended success :: back) := by
  unfold finished at h
  rcases hedit : editFirst (finishes url path) (.ended success) items with _ | r'
  · rw [hedit] at h
    exact absurd h (by simp [orError])
  · rw [hedit] at h
    obtain rfl : r' = r := Except.ok.inj h
    exact editFirst_spec hedit

theorem recorded_spec {u : Unit} {result : Except String (Option PathBuf)}
    (h : recorded id result items = .ok (u, next)) :
    ∃ front item back, items = front ++ item :: back ∧ item.id = id ∧
      next = front ++ item.settled result :: back := by
  unfold recorded at h
  rcases hedit : editFirst (·.id = id) (.settled result) items with _ | r
  · rw [hedit] at h
    exact absurd h (by simp [orError, bind, Except.bind])
  · rw [hedit] at h
    obtain ⟨front, item, back, rfl, hid, rfl⟩ := editFirst_spec hedit
    exact ⟨front, item, back, rfl, by simpa using hid, (Prod.mk.inj (Except.ok.inj h)).2.symm⟩

theorem Listed.requested {u : Unit} (h : Listed app ids copies items) (hid : id ∉ ids)
    (huuid : app.parseUuid id = true)
    (hreq : requested app id url fileName directory items = .ok (u, next)) :
    Listed app (ids ++ [id]) copies next := by
  obtain ⟨kept, name, hname, hsub, hactive, hlen, hcount, hurl, rfl⟩ := requested_spec hreq
  have hkept := (h.sublist hsub).mono (List.subset_append_left ids [id]) (List.Subset.refl copies)
  refine ⟨fun item hitem => ?_, ?_, ?_, ?_, ?_⟩
  · rcases List.mem_append.1 hitem with hitem | hitem
    · exact hkept.sound item hitem
    · obtain rfl := List.mem_singleton.1 hitem
      exact { uuid := huuid
              name := hname
              path := fun _ hp => by simp [begun] at hp
              issued := by simp [begun]
              active := fun _ => rfl
              own := fun _ hp => (Option.some.inj hp).symm
              copied := fun hs => by simp [begun] at hs }
  · rw [List.map_append, List.nodup_append]
    refine ⟨hkept.nodup, by simp, ?_⟩
    intro a ha b hb hab
    obtain ⟨x, hx, rfl⟩ := List.mem_map.1 ha
    obtain rfl : b = id := by simpa [begun] using hb
    exact hid (hab ▸ (h.sound x (hsub.subset hx)).issued)
  · have := h.length_le
    rw [List.length_append, List.length_singleton]
    simp only [limit] at *
    omega
  · rw [List.filter_append, List.length_append, hactive]
    have : ([begun app id name url].filter (·.status.active)).length = 1 := rfl
    omega
  · rw [List.filter_append, List.map_append, List.nodup_append]
    refine ⟨hkept.urls, by simp [begun], ?_⟩
    intro a ha b hb hab
    obtain ⟨x, hx, rfl⟩ := List.mem_map.1 ha
    obtain ⟨hx, hdown⟩ := List.mem_filter.1 hx
    obtain rfl : b = url := by simpa [begun] using hb
    exact hurl x (hsub.subset hx) (by simpa using hdown) hab

theorem Listed.finished {r : Download × List Download} (h : Listed app ids copies items)
    (hfin : finished url path success items = .ok r) : Listed app ids copies r.2 := by
  obtain ⟨front, item, back, rfl, hitem, rfl⟩ := finished_spec hfin
  have hsound := h.sound item (by simp)
  have hdown : item.status = .downloading := by
    unfold finishes at hitem
    simpa using (Bool.and_eq_true_iff.1 hitem).1
  have hpart := hsound.active (by rw [hdown]; rfl)
  unfold Download.ended
  split_ifs
  · exact h.update rfl (fun _ => by rw [hdown]; rfl) (by simp)
      { uuid := hsound.uuid
        name := hsound.name
        path := hsound.path
        issued := hsound.issued
        active := fun _ => hpart
        own := hsound.own
        copied := fun hs => by simp at hs }
  · exact h.update rfl (fun ha => by simp [Status.active] at ha) (by simp)
      { uuid := hsound.uuid
        name := hsound.name
        path := hsound.path
        issued := hsound.issued
        active := fun ha => by simp [Status.active] at ha
        own := hsound.own
        copied := fun hs => by simp at hs }

/-- A path that is written is a text. -/
theorem utf8_of_toVec {text : String} (h : toVec next = .ok text) {item : Download}
    (hitem : item ∈ next) {path : PathBuf} (hpath : item.path = some path) : ∃ p, path = .utf8 p := by
  obtain ⟨records, hrecords, -⟩ := Fallible.bind_eq_ok.1 h
  clear h
  induction next generalizing records with
  | nil => simp at hitem
  | cons x next ih =>
    rw [List.mapM_cons] at hrecords
    obtain ⟨r, hr, hrecords⟩ := Fallible.bind_eq_ok.1 hrecords
    obtain ⟨rs, hrs, -⟩ := Fallible.bind_eq_ok.1 hrecords
    rcases List.mem_cons.1 hitem with rfl | hitem
    · unfold Download.stored at hr
      rw [hpath] at hr
      cases path with
      | utf8 p => exact ⟨p, rfl⟩
      | bytes p => exact absurd hr (by simp [PathBuf.toStr, orError, bind, Except.bind])
    · exact ih hitem _ hrs

theorem Listed.recorded {u : Unit} {text : String} {result : Except String (Option PathBuf)}
    (h : Listed app ids copies items)
    (hresult : ∀ path, result = .ok (some path) →
      (app.partFile id, path) ∈ copies ∧ path.isAbsolute = true)
    (hrec : recorded id result items = .ok (u, next)) (htext : toVec next = .ok text) :
    Listed app ids copies next := by
  obtain ⟨front, item, back, rfl, rfl, rfl⟩ := recorded_spec hrec
  have hsound := h.sound item (by simp)
  have hinactive : (item.settled result).status.active = false := by
    unfold Download.settled
    split <;> rfl
  refine h.update ?_ ?_ ?_ ?_
  · unfold Download.settled
    split <;> rfl
  · simp [hinactive]
  · intro hdown
    rw [hdown] at hinactive
    exact absurd hinactive (by decide)
  · have hpath : ∀ path, (item.settled result).path = some path → ∃ p, path = .utf8 p :=
      fun path => utf8_of_toVec htext (by simp)
    rcases result with error | _ | path
    · exact { uuid := hsound.uuid
              name := hsound.name
              path := hsound.path
              issued := hsound.issued
              active := fun ha => absurd ha (by rw [hinactive]; simp)
              own := fun _ hp => by simp [Download.settled] at hp
              copied := fun hs => by simp [Download.settled] at hs }
    · exact { uuid := hsound.uuid
              name := hsound.name
              path := hsound.path
              issued := hsound.issued
              active := fun ha => absurd ha (by rw [hinactive]; simp)
              own := fun _ hp => by simp [Download.settled] at hp
              copied := fun hs => by simp [Download.settled] at hs }
    · obtain ⟨hcopied, habs⟩ := hresult path rfl
      obtain ⟨p, rfl⟩ := hpath path rfl
      exact { uuid := hsound.uuid
              name := hsound.name
              path := fun _ hp => ⟨p, (Option.some.inj hp).symm, Option.some.inj hp ▸ habs⟩
              issued := hsound.issued
              active := fun ha => absurd ha (by rw [hinactive]; simp)
              own := fun _ hp => by simp [Download.settled] at hp
              copied := fun _ => ⟨_, rfl, hcopied⟩ }

end edits

/-! ### Changes -/

/-- The list a change begins with: that in memory, or what the file has. -/
def Opens (app : App) (s : State) (items : List Download) : Prop :=
  s.items = some items ∨
    s.items = none ∧ (s.file = none ∧ items = [] ∨
      ∃ text, s.file = some text ∧ text.utf8ByteSize ≤ 1024 * 1024 ∧ restore app text = .ok items)

variable {α : Type} {io : Io} {edit : List Download → Except String (α × List Download)} {s : State}

theorem load_spec : wp (load app io) (fun items t => t = s ∧
    (s.file = none ∧ items = [] ∨ ∃ text, s.file = some text ∧ text.utf8ByteSize ≤ 1024 * 1024 ∧
      restore app text = .ok items)) (fun _ t => t = s) s := by
  unfold load
  rw [Prog.wp_bind, Prog.wp_current]
  rcases hfile : s.file with _ | text
  · simp
  · simp only [Prog.wp_bind, Prog.wp_lift, Prog.wp_bailIf]
    refine ⟨fun _ _ => ⟨fun _ => trivial, fun hsize => ⟨fun items hitems => ?_, fun _ _ => trivial⟩⟩,
      fun _ _ => trivial⟩
    exact ⟨trivial, .inr ⟨text, rfl, Nat.le_of_not_lt hsize, hitems⟩⟩

/-- All a change can do: nothing, or keep the list it began with, or write what the edit makes of
that list. -/
theorem change_spec : wp (change app io edit)
    (fun r t => ∃ items next text, Opens app s items ∧ edit items = .ok (r, next) ∧
      toVec next = .ok text ∧ io.write = .ok () ∧
      t = { s with items := some next, file := some text })
    (fun _ t => t = s ∨ ∃ items, Opens app s items ∧ t = { s with items := some items }) s := by
  have hloaded : wp (loaded app io)
      (fun items t => Opens app s items ∧ t = { s with items := some items })
      (fun _ t => t = s ∨ ∃ items, Opens app s items ∧ t = { s with items := some items }) s := by
    unfold loaded
    rw [Prog.wp_bind, Prog.wp_current]
    rcases hitems : s.items with _ | items
    · rw [Prog.wp_bind]
      refine Prog.wp_mono load_spec ?_ (fun _ _ ht => .inl ht)
      rintro items t ⟨rfl, hopens⟩
      exact ⟨.inr ⟨hitems, hopens⟩, rfl⟩
    · refine ⟨.inl hitems, ?_⟩
      rw [← hitems]
  unfold change
  rw [Prog.wp_bind]
  refine Prog.wp_mono hloaded ?_ (fun _ _ ht => ht)
  rintro items t ⟨hopens, rfl⟩
  have hkeep : ({ s with items := some items } : State) = s ∨
      ∃ items', Opens app s items' ∧
        ({ s with items := some items } : State) = { s with items := some items' } :=
    .inr ⟨items, hopens, rfl⟩
  simp only [Prog.wp_bind, Prog.wp_lift, Prog.wp_update, Prog.wp_pure]
  exact ⟨fun r hedit => ⟨fun text htext =>
    ⟨fun _ hwrite => ⟨items, r.2, text, hopens, hedit, htext, hwrite, rfl⟩, fun _ _ => hkeep⟩,
    fun _ _ => hkeep⟩, fun _ _ => hkeep⟩

/-- The record a task is about: no restart interrupted it. -/
structure Task (app : App) (ids : List String) (items : Option (List Download)) (item : Download) :
    Prop where
  issued : item.id ∈ ids
  own : item.temporary = some (app.partFile item.id)
  going : ∀ l, items = some l → ∀ x ∈ l, x.id = item.id → x.status ≠ .interrupted

structure Inv (app : App) (ids : List String) (s : State) : Prop where
  file : ∀ text, s.file = some text → ∃ records, toVec records = .ok text ∧
    Listed app ids s.copies records ∧
      ∀ items, s.items = some items → records.map Download.reopened = items.map Download.reopened
  items : ∀ items, s.items = some items → Listed app ids s.copies items
  idle : s.items = none → s.waiting = [] ∧ s.saved = none
  waiting : ∀ task ∈ s.waiting, Task app ids s.items task.item
  saved : ∀ item result, s.saved = some (item, result) → Task app ids s.items item ∧
    ∀ path, result = .ok (some path) →
      (app.partFile item.id, path) ∈ s.copies ∧ path.isAbsolute = true

theorem Listed.restore {items loaded : List Download} {text : String}
    (h : Listed app ids copies items) (htext : toVec items = .ok text) :
    restore app text = .ok loaded ↔
      (∀ item ∈ items, item.url.utf8ByteSize ≤ 8192) ∧ loaded = items.map Download.reopened :=
  restore_iff htext (fun item hitem => (h.sound item hitem).toWellFormed) h.length_le

theorem inv_start : Inv app ids {} where
  file _ h := by simp at h
  items _ h := by simp at h
  idle _ := ⟨rfl, rfl⟩
  waiting _ h := by simp at h
  saved _ _ h := by simp at h

theorem Inv.mono {ids' : List String} (h : Inv app ids s) (hids : ids ⊆ ids') : Inv app ids' s where
  file text htext := by
    obtain ⟨records, hrecords, hlisted, hsame⟩ := h.file text htext
    exact ⟨records, hrecords, hlisted.mono hids (List.Subset.refl _), hsame⟩
  items items hitems := (h.items items hitems).mono hids (List.Subset.refl _)
  idle := h.idle
  waiting task htask := { h.waiting task htask with issued := hids (h.waiting task htask).issued }
  saved item result hsaved :=
    ⟨{ (h.saved item result hsaved).1 with issued := hids (h.saved item result hsaved).1.issued },
      (h.saved item result hsaved).2⟩

/-- What is loaded is what a restart makes of what was written. -/
theorem Inv.opened {items : List Download} (h : Inv app ids s) (hopens : Opens app s items) :
    Inv app ids { s with items := some items } := by
  rcases hopens with hitems | ⟨hnone, hopens⟩
  · rwa [← hitems]
  · obtain ⟨hwaiting, hsaved⟩ := h.idle hnone
    refine { file := ?_, items := ?_, idle := ?_, waiting := ?_, saved := ?_ }
    · intro text htext
      obtain ⟨records, hrecords, hlisted, -⟩ := h.file text htext
      refine ⟨records, hrecords, hlisted, ?_⟩
      rintro _ ⟨⟩
      rcases hopens with ⟨hfile, -⟩ | ⟨text', htext', -, hrestore⟩
      · exact absurd (hfile.symm.trans htext) (by simp)
      · obtain rfl := Option.some.inj (htext.symm.trans htext')
        obtain ⟨-, rfl⟩ := (hlisted.restore hrecords).1 hrestore
        simp [Function.comp_def]
    · rintro _ ⟨⟩
      rcases hopens with ⟨-, rfl⟩ | ⟨text, htext, -, hrestore⟩
      · exact listed_nil
      · obtain ⟨records, hrecords, hlisted, -⟩ := h.file text htext
        obtain ⟨-, rfl⟩ := (hlisted.restore hrecords).1 hrestore
        exact hlisted.reopened
    · simp
    · simp [hwaiting]
    · simp [hsaved]

/-- The list is written anew, and no record is newly interrupted. -/
theorem Inv.edited {ids' : List String} {items next : List Download} {text : String}
    (h : Inv app ids s) (hitems : s.items = some items) (hids : ids ⊆ ids')
    (hlisted : Listed app ids' s.copies next)
    (hgoing : ∀ x ∈ next, x.status = .interrupted → x ∈ items) (htext : toVec next = .ok text) :
    Inv app ids' { s with items := some next, file := some text } := by
  have htask : ∀ {item : Download}, Task app ids s.items item → Task app ids' (some next) item :=
    fun htask =>
      { issued := hids htask.issued
        own := htask.own
        going := by
          rintro _ ⟨⟩ x hx hid hs
          exact htask.going items hitems x (hgoing x hx hs) hid hs }
  refine { file := ?_, items := ?_, idle := ?_, waiting := ?_, saved := ?_ }
  · rintro _ ⟨⟩
    refine ⟨next, htext, hlisted, ?_⟩
    rintro _ ⟨⟩
    rfl
  · rintro _ ⟨⟩
    exact hlisted
  · simp
  · exact fun task ht => htask (h.waiting task ht)
  · exact fun item result hsaved => ⟨htask (h.saved item result hsaved).1, (h.saved item result hsaved).2⟩

theorem Inv.restarted (h : Inv app ids s) :
    Inv app ids { file := s.file, copies := s.copies } where
  file text htext := by
    obtain ⟨records, hrecords, hlisted, -⟩ := h.file text htext
    exact ⟨records, hrecords, hlisted, fun _ hnone => by simp at hnone⟩
  items _ hnone := by simp at hnone
  idle _ := ⟨rfl, rfl⟩
  waiting _ ht := by simp at ht
  saved _ _ hs := by simp at hs

/-- The rule for a change: its edit begins with the list in memory. -/
theorem wp_change {Q : α → State → Prop} (h : Inv app ids s)
    (hedit : ∀ items next text r, Inv app ids { s with items := some items } →
      edit items = .ok (r, next) → toVec next = .ok text →
      Q r { s with items := some next, file := some text }) :
    wp (change app io edit) Q (fun _ t => Inv app ids t) s := by
  refine Prog.wp_mono change_spec ?_ ?_
  · rintro r t ⟨items, next, text, hopens, hr, htext, -, rfl⟩
    exact hedit items next text r (h.opened hopens) hr htext
  · rintro e t (rfl | ⟨items, hopens, rfl⟩)
    · exact h
    · exact h.opened hopens

/-! ### Steps -/

/-- The `Uuid` a request is given. -/
def Act.newId : Act → Option String
  | .request _ id .. => some id
  | _ => none

/-- The path that is chosen for a download. -/
def Act.dialog : Act → Option PathBuf
  | .save _ _ (.ok (some path)) _ => some path
  | _ => none

theorem handleRequested_inv {id url : String} {fileName : Option String}
    {directory : Except String Unit} (h : Inv app ids s) (hid : id ∉ ids)
    (huuid : app.parseUuid id = true) :
    wp (handleRequested app io id url fileName directory) (fun _ t => Inv app (ids ++ [id]) t)
      (fun _ t => Inv app ids t) s := by
  refine wp_change h fun items next text u hs hedit htext => ?_
  have hlisted := hs.items items rfl
  refine hs.edited rfl (List.subset_append_left ids [id]) (hlisted.requested hid huuid hedit) ?_ htext
  intro x hx hstatus
  obtain ⟨kept, name, -, hsub, -, -, -, -, rfl⟩ := requested_spec hedit
  rcases List.mem_append.1 hx with hx | hx
  · exact hsub.subset hx
  · obtain rfl := List.mem_singleton.1 hx
    simp [begun] at hstatus

theorem ended_not_interrupted (success : Bool) (item : Download) :
    (item.ended success).status ≠ .interrupted := by
  unfold Download.ended
  split_ifs <;> simp

theorem settled_not_interrupted (result : Except String (Option PathBuf)) (item : Download) :
    (item.settled result).status ≠ .interrupted := by
  unfold Download.settled
  split <;> simp

/-- Of records with different ids, one has the id of a member. -/
theorem eq_of_id {front back : List Download} {item x : Download}
    (h : ((front ++ item :: back).map (·.id)).Nodup) (hx : x ∈ front ++ item :: back)
    (hid : x.id = item.id) : x = item :=
  List.inj_on_of_nodup_map h hx (by simp) hid

theorem handleFinished_inv {url : String} {path : Option PathBuf} {success : Bool}
    (h : Inv app ids s) :
    wp (handleFinished app io url path success) (fun _ t => Inv app ids t)
      (fun _ t => Inv app ids t) s := by
  unfold handleFinished
  rw [Prog.wp_bind]
  refine wp_change h fun items next text item' hs hedit htext => ?_
  rw [Prog.wp_update]
  have hlisted := hs.items items rfl
  have hnext : Listed app ids s.copies next := hlisted.finished hedit
  obtain ⟨front, item, back, rfl, hitem, hr⟩ := finished_spec hedit
  obtain ⟨rfl, rfl⟩ := Prod.mk.inj hr
  have hsound := hlisted.sound item (by simp)
  have hdown : item.status = .downloading := by
    unfold finishes at hitem
    simpa using (Bool.and_eq_true_iff.1 hitem).1
  have hsame : (item.ended success).id = item.id ∧ (item.ended success).temporary = item.temporary := by
    unfold Download.ended
    split_ifs <;> exact ⟨rfl, rfl⟩
  have hinv := hs.edited rfl (List.Subset.refl ids) hnext (fun x hx hstatus => ?_) htext
  · refine { file := hinv.file, items := hinv.items, idle := by simp, waiting := ?_, saved := hinv.saved }
    intro task htask
    rcases List.mem_append.1 htask with htask | htask
    · exact hinv.waiting task htask
    · obtain rfl := List.mem_singleton.1 htask
      refine { issued := hsame.1 ▸ hsound.issued, own := ?_, going := ?_ }
      · rw [hsame.1, hsame.2]
        exact hsound.active (by rw [hdown]; rfl)
      · rintro _ ⟨⟩ x hx hid
        rw [eq_of_id hnext.nodup hx hid]
        exact ended_not_interrupted success item
  · rcases List.mem_append.1 hx with hx | hx
    · exact List.mem_append_left _ hx
    · rcases List.mem_cons.1 hx with rfl | hx
      · exact absurd hstatus (ended_not_interrupted success item)
      · exact List.mem_append_right _ (List.mem_cons_of_mem _ hx)

theorem saveResult_spec {task : Save} {size : Except String ℕ}
    {chosen : Except String (Option PathBuf)} {copy : Except String Unit} {path : PathBuf}
    (h : saveResult task size chosen copy = .ok (some path)) : chosen = .ok (some path) := by
  unfold saveResult at h
  simp only [Fallible.bind_eq_ok] at h
  obtain ⟨-, -, -, -, n, -, -, -, place, hchosen, h⟩ := h
  rcases place with _ | place
  · exact absurd (Except.ok.inj h) (by simp)
  · obtain ⟨-, -, h⟩ := Fallible.bind_eq_ok.1 h
    rw [hchosen, Except.ok.inj h]

theorem save_copies (index : ℕ) (size : Except String ℕ) (chosen : Except String (Option PathBuf))
    (copy : Except String Unit) : s.copies ⊆ (save index size chosen copy s).copies := by
  unfold save
  split
  · dsimp only
    split
    · exact List.subset_append_left _ _
    · exact List.Subset.refl _
  · exact List.Subset.refl _

theorem save_inv {index : ℕ} {size : Except String ℕ} {chosen : Except String (Option PathBuf)}
    {copy : Except String Unit} (h : Inv app ids s)
    (habs : ∀ path, chosen = .ok (some path) → path.isAbsolute = true) :
    Inv app ids (save index size chosen copy s) := by
  have hcopies := save_copies (s := s) index size chosen copy
  revert hcopies
  unfold save
  split
  · rename_i task hfree hwaiting
    intro hcopies
    have htask := h.waiting task (List.mem_of_getElem? hwaiting)
    refine { file := ?_, items := ?_, idle := ?_, waiting := ?_, saved := ?_ }
    · intro text htext
      obtain ⟨records, hrecords, hlisted, hsame⟩ := h.file text htext
      exact ⟨records, hrecords, hlisted.mono (List.Subset.refl _) hcopies, hsame⟩
    · exact fun items hitems => (h.items items hitems).mono (List.Subset.refl _) hcopies
    · intro hnone
      rw [(h.idle hnone).1] at hwaiting
      exact absurd hwaiting (by simp)
    · exact fun task' ht => h.waiting task' (List.mem_of_mem_eraseIdx ht)
    · rintro _ _ ⟨⟩
      refine ⟨htask, fun path hpath => ⟨?_, habs path (saveResult_spec hpath)⟩⟩
      simp [htask.own, hpath]
  · exact fun _ => h

theorem record_inv (h : Inv app ids s) :
    wp (record app io) (fun _ t => Inv app ids t) (fun _ t => Inv app ids t) s := by
  unfold record
  rw [Prog.wp_bind, Prog.wp_current]
  rcases hsaved : s.saved with _ | ⟨item, result⟩
  · exact h
  · obtain ⟨htask, hresult⟩ := h.saved item result hsaved
    have hfree : Inv app ids { s with saved := none } :=
      { file := h.file
        items := h.items
        idle := fun hnone => ⟨(h.idle hnone).1, rfl⟩
        waiting := h.waiting
        saved := fun _ _ hs => by simp at hs }
    rw [Prog.wp_bind, Prog.wp_update]
    refine wp_change hfree fun items next text u hs hedit htext => ?_
    have hlisted := (hs.items items rfl).recorded hresult hedit htext
    refine hs.edited rfl (List.Subset.refl ids) hlisted ?_ htext
    intro x hx hstatus
    obtain ⟨front, y, back, rfl, -, rfl⟩ := recorded_spec hedit
    rcases List.mem_append.1 hx with hx | hx
    · exact List.mem_append_left _ hx
    · rcases List.mem_cons.1 hx with rfl | hx
      · exact absurd hstatus (settled_not_interrupted result y)
      · exact List.mem_append_right _ (List.mem_cons_of_mem _ hx)

/-- A change that at most takes records out. -/
theorem wp_sublist (h : Inv app ids s)
    (hsub : ∀ items r next, edit items = .ok (r, next) → next.Sublist items) :
    wp (change app io edit) (fun _ t => Inv app ids t) (fun _ t => Inv app ids t) s := by
  refine wp_change h fun items next text r hs hedit htext => ?_
  have hnext := hsub items r next hedit
  exact hs.edited rfl (List.Subset.refl ids) ((hs.items items rfl).sublist hnext)
    (fun x hx _ => hnext.subset hx) htext

theorem step_inv {act : Act} (h : Inv app ids s)
    (hid : ∀ id, act.newId = some id → id ∉ ids ∧ app.parseUuid id = true)
    (habs : ∀ path, act.dialog = some path → path.isAbsolute = true) :
    Inv app (ids ++ act.newId.toList) (step app s act) := by
  have hsame : ∀ {act : Act}, act.newId = none → ids ++ act.newId.toList = ids := by
    intro act hnone
    rw [hnone, Option.toList_none, List.append_nil]
  cases act with
  | request io id url fileName directory =>
    obtain ⟨hnew, huuid⟩ := hid id rfl
    exact Prog.state_of_wp (Prog.wp_mono (handleRequested_inv h hnew huuid) (fun _ _ ht => ht)
      fun _ _ ht => ht.mono (List.subset_append_left ids [id]))
  | finish io url path success =>
    rw [hsame rfl]
    exact Prog.state_of_wp (handleFinished_inv h)
  | save index size chosen copy =>
    rw [hsame rfl]
    exact save_inv h fun path hpath => habs path (by rw [hpath]; rfl)
  | record io =>
    rw [hsame rfl]
    exact Prog.state_of_wp (record_inv h)
  | list io =>
    rw [hsame rfl]
    refine Prog.state_of_wp (wp_sublist h fun items r next hedit => ?_)
    obtain ⟨-, rfl⟩ := Prod.mk.inj (Except.ok.inj hedit)
    exact List.Sublist.refl _
  | clear io =>
    rw [hsame rfl]
    refine Prog.state_of_wp (wp_sublist h fun items r next hedit => ?_)
    obtain ⟨-, rfl⟩ := Prod.mk.inj (Except.ok.inj hedit)
    exact List.filter_sublist
  | reveal io id =>
    rw [hsame rfl]
    refine Prog.state_of_wp (wp_sublist h fun items r next hedit => ?_)
    obtain ⟨path, -, hedit⟩ := Fallible.bind_eq_ok.1 hedit
    obtain ⟨-, rfl⟩ := Prod.mk.inj (Except.ok.inj hedit)
    exact List.Sublist.refl _
  | restart =>
    rw [hsame rfl]
    exact h.restarted

/-- What the system promises of a run: every new id is another one that reads as a `Uuid`, and the
dialog gives absolute paths. -/
structure Promised (app : App) (acts : List Act) : Prop where
  fresh : (acts.filterMap Act.newId).Nodup
  uuid : ∀ id ∈ acts.filterMap Act.newId, app.parseUuid id = true
  absolute : ∀ path ∈ acts.filterMap Act.dialog, path.isAbsolute = true

theorem Promised.prefix {acts more : List Act} (h : Promised app (acts ++ more)) :
    Promised app acts where
  fresh := by
    have := h.fresh
    rw [List.filterMap_append] at this
    exact this.of_append_left
  uuid id hid := h.uuid id (by rw [List.filterMap_append]; exact List.mem_append_left _ hid)
  absolute path hpath :=
    h.absolute path (by rw [List.filterMap_append]; exact List.mem_append_left _ hpath)

/-- What a run is promised, its next step is promised. -/
theorem Promised.next {acts : List Act} {act : Act} (h : Promised app (acts ++ [act])) :
    (∀ id, act.newId = some id → id ∉ acts.filterMap Act.newId ∧ app.parseUuid id = true) ∧
      ∀ path, act.dialog = some path → path.isAbsolute = true := by
  refine ⟨fun id hid => ⟨?_, h.uuid id ?_⟩, fun path hpath => h.absolute path ?_⟩
  · have hfresh := h.fresh
    rw [List.filterMap_append, List.nodup_append] at hfresh
    exact fun hmem => hfresh.2.2 id hmem id (by simp [hid]) rfl
  · simp [hid]
  · simp [hpath]

theorem run_inv {acts : List Act} (h : Promised app acts) :
    Inv app (acts.filterMap Act.newId) (run app acts) := by
  refine Runs.run_induction
    (P := fun acts s => Promised app acts → Inv app (acts.filterMap Act.newId) s)
    (fun _ => inv_start) (fun acts act ih h => ?_) acts h
  obtain ⟨hid, habs⟩ := h.next
  have hstep := step_inv (ih h.prefix) hid habs
  have hids : (acts ++ [act]).filterMap Act.newId = acts.filterMap Act.newId ++ act.newId.toList := by
    rw [List.filterMap_append]
    cases hact : act.newId <;> simp [hact]
  rwa [hids]

/-! ### Interrupted records -/

/-- A record that a restart interrupted: nothing is under way that could still complete it. -/
structure Stopped (app : App) (id : String) (s : State) : Prop where
  items : ∀ l, s.items = some l → ∀ x ∈ l, x.id = id → x.status = .interrupted
  file : ∀ text l, s.file = some text → restore app text = .ok l →
    ∀ x ∈ l, x.id = id → x.status = .interrupted
  waiting : ∀ task ∈ s.waiting, task.item.id ≠ id
  saved : ∀ item result, s.saved = some (item, result) → item.id ≠ id

/-- What a change leaves of that. The file is what the list in memory says it is. -/
structure Rests (id : String) (s t : State) : Prop where
  items : ∀ l, t.items = some l → ∀ x ∈ l, x.id = id → x.status = .interrupted
  file : t.items = none → t.file = s.file
  waiting : ∀ task ∈ t.waiting, task.item.id ≠ id
  saved : ∀ item result, t.saved = some (item, result) → item.id ≠ id

theorem Rests.stopped {id : String} {t : State} (h : Rests id s t) (hs : Stopped app id s)
    (ht : Inv app ids t) : Stopped app id t where
  items := h.items
  waiting := h.waiting
  saved := h.saved
  file text l htext hl x hx hid := by
    rcases hitems : t.items with _ | items
    · rw [h.file hitems] at htext
      exact hs.file text l htext hl x hx hid
    · obtain ⟨records, hrecords, hlisted, hsame⟩ := ht.file text htext
      obtain ⟨-, rfl⟩ := (hlisted.restore hrecords).1 hl
      rw [hsame items hitems] at hx
      obtain ⟨y, hy, rfl⟩ := List.mem_map.1 hx
      rw [reopened_id] at hid
      rw [reopened_status, h.items items hitems y hy hid]
      rfl

theorem Stopped.opens {id : String} {items : List Download} (h : Stopped app id s)
    (hopens : Opens app s items) : ∀ x ∈ items, x.id = id → x.status = .interrupted := by
  rcases hopens with hitems | ⟨-, ⟨-, rfl⟩ | ⟨text, htext, -, hrestore⟩⟩
  · exact h.items items hitems
  · simp
  · exact h.file text items htext hrestore

theorem wp_rests {id : String} (h : Stopped app id s)
    (hedit : ∀ items r next, (∀ x ∈ items, x.id = id → x.status = .interrupted) →
      edit items = .ok (r, next) → ∀ x ∈ next, x.id = id → x.status = .interrupted) :
    wp (change app io edit)
      (fun r t => Rests id s t ∧ ∃ items next, (∀ x ∈ items, x.id = id → x.status = .interrupted) ∧
        edit items = .ok (r, next))
      (fun _ t => Rests id s t) s := by
  refine Prog.wp_mono change_spec ?_ ?_
  · rintro r t ⟨items, next, text, hopens, hr, -, -, rfl⟩
    have hitems := h.opens hopens
    refine ⟨⟨?_, by simp, h.waiting, h.saved⟩, items, next, hitems, hr⟩
    rintro _ ⟨⟩
    exact hedit items r next hitems hr
  · rintro e t (rfl | ⟨items, hopens, rfl⟩)
    · exact ⟨h.items, fun _ => rfl, h.waiting, h.saved⟩
    · refine ⟨?_, by simp, h.waiting, h.saved⟩
      rintro _ ⟨⟩
      exact h.opens hopens

/-- Where one record gives way to another, the rest is as it was. -/
theorem interrupted_update {id : String} {front back : List Download} {item item' : Download}
    (h : ∀ x ∈ front ++ item :: back, x.id = id → x.status = .interrupted) (hid : item'.id ≠ id) :
    ∀ x ∈ front ++ item' :: back, x.id = id → x.status = .interrupted := by
  intro x hx hxid
  rcases List.mem_append.1 hx with hx | hx
  · exact h x (List.mem_append_left _ hx) hxid
  · rcases List.mem_cons.1 hx with rfl | hx
    · exact absurd hxid hid
    · exact h x (List.mem_append_right _ (List.mem_cons_of_mem _ hx)) hxid

/-- A download that ends is none that was interrupted. -/
theorem finished_other {id url : String} {path : Option PathBuf} {success : Bool}
    {items : List Download} {r : Download × List Download}
    (h : ∀ x ∈ items, x.id = id → x.status = .interrupted)
    (hfin : finished url path success items = .ok r) :
    r.1.id ≠ id ∧ ∀ x ∈ r.2, x.id = id → x.status = .interrupted := by
  obtain ⟨front, item, back, rfl, hitem, rfl⟩ := finished_spec hfin
  have hdown : item.status = .downloading := by
    unfold finishes at hitem
    simpa using (Bool.and_eq_true_iff.1 hitem).1
  have hid : (item.ended success).id ≠ id := by
    have hsame : (item.ended success).id = item.id := by
      unfold Download.ended
      split_ifs <;> rfl
    rw [hsame]
    intro heq
    rw [h item (by simp) heq] at hdown
    exact absurd hdown (by decide)
  exact ⟨hid, interrupted_update h hid⟩

theorem step_rests {id : String} {act : Act} (h : Stopped app id s) (hid : act.newId ≠ some id) :
    Rests id s (step app s act) := by
  cases act with
  | request io new url fileName directory =>
    refine Prog.state_of_wp (P := Rests id s) (Prog.wp_mono (wp_rests h fun items r next hitems hedit => ?_)
      (fun _ _ ht => ht.1) fun _ _ ht => ht)
    obtain ⟨kept, name, -, hsub, -, -, -, -, rfl⟩ := requested_spec hedit
    intro x hx hxid
    rcases List.mem_append.1 hx with hx | hx
    · exact hitems x (hsub.subset hx) hxid
    · obtain rfl := List.mem_singleton.1 hx
      exact absurd (congrArg some hxid) hid
  | finish io url path success =>
    refine Prog.state_of_wp (P := Rests id s) ?_
    unfold handleFinished
    rw [Prog.wp_bind]
    refine Prog.wp_mono (wp_rests h fun items r next hitems hedit =>
      (finished_other hitems hedit).2) ?_ (fun _ _ ht => ht)
    rintro item t ⟨ht, items, next, hitems, hedit⟩
    refine ⟨ht.items, ht.file, fun task htask => ?_, ht.saved⟩
    rcases List.mem_append.1 htask with htask | htask
    · exact ht.waiting task htask
    · obtain rfl := List.mem_singleton.1 htask
      exact (finished_other hitems hedit).1
  | save index size chosen copy =>
    show Rests id s (save index size chosen copy s)
    unfold save
    split
    · rename_i task hfree hwaiting
      refine ⟨h.items, fun _ => rfl, fun t ht => h.waiting t (List.mem_of_mem_eraseIdx ht), ?_⟩
      rintro _ _ ⟨⟩
      exact h.waiting task (List.mem_of_getElem? hwaiting)
    · exact ⟨h.items, fun _ => rfl, h.waiting, h.saved⟩
  | record io =>
    refine Prog.state_of_wp (P := Rests id s) ?_
    unfold record
    rw [Prog.wp_bind, Prog.wp_current]
    rcases hsaved : s.saved with _ | ⟨item, result⟩
    · exact ⟨h.items, fun _ => rfl, h.waiting, h.saved⟩
    · have hother := h.saved item result hsaved
      have hfree : Stopped app id { s with saved := none } :=
        ⟨h.items, h.file, h.waiting, fun _ _ hs => by simp at hs⟩
      have hrests : ∀ t, Rests id { s with saved := none } t → Rests id s t := fun t ht =>
        ⟨ht.items, ht.file, ht.waiting, ht.saved⟩
      rw [Prog.wp_bind, Prog.wp_update]
      refine Prog.wp_mono (wp_rests hfree fun items r next hitems hedit => ?_)
        (fun _ t ht => hrests t ht.1) fun _ t ht => hrests t ht
      obtain ⟨front, y, back, rfl, hy, rfl⟩ := recorded_spec hedit
      refine interrupted_update hitems ?_
      have hsame : (y.settled result).id = y.id := by
        unfold Download.settled
        split <;> rfl
      rw [hsame, hy]
      exact hother
  | list io =>
    refine Prog.state_of_wp (P := Rests id s) (Prog.wp_mono (wp_rests h fun items r next hitems hedit => ?_)
      (fun _ _ ht => ht.1) fun _ _ ht => ht)
    obtain ⟨-, rfl⟩ := Prod.mk.inj (Except.ok.inj hedit)
    exact hitems
  | clear io =>
    refine Prog.state_of_wp (P := Rests id s) (Prog.wp_mono (wp_rests h fun items r next hitems hedit => ?_)
      (fun _ _ ht => ht.1) fun _ _ ht => ht)
    obtain ⟨-, rfl⟩ := Prod.mk.inj (Except.ok.inj hedit)
    exact fun x hx => hitems x (List.mem_of_mem_filter hx)
  | reveal io id' =>
    refine Prog.state_of_wp (P := Rests id s) (Prog.wp_mono (wp_rests h fun items r next hitems hedit => ?_)
      (fun _ _ ht => ht.1) fun _ _ ht => ht)
    obtain ⟨path, -, hedit⟩ := Fallible.bind_eq_ok.1 hedit
    obtain ⟨-, rfl⟩ := Prod.mk.inj (Except.ok.inj hedit)
    exact hitems
  | restart =>
    exact ⟨fun _ hl => by simp [step] at hl, fun _ => rfl, fun _ ht => by simp [step] at ht,
      fun _ _ hs => by simp [step] at hs⟩

end Downloads

end LatteWork
