import LatteWork.Proofs.DownloadRuns
import LatteWork.Wire.JsonSize

/-!
# Download records

What a run of the downloads keeps of its records, and when the file it wrote is accepted again. An
address is checked without its `blob:` and stored with it, and the file as a whole is checked only
when it is read.
-/

namespace LatteWork

namespace Downloads

open Fallible (bailIf orError)
open Prog (wp)

variable {app : App} {ids : List String} {s : State} {io : Io} {α : Type}
  {edit : List Download → Except String (α × List Download)} {items : List Download}

/-- The file is accepted. -/
def Readable (app : App) (s : State) : Prop := ∃ items, ((load app {}).run s).1 = .ok items

theorem readable_iff {text : String} (h : Inv app ids s) (hitems : s.items = some items)
    (htext : s.file = some text) : Readable app (step app s .restart) ↔
      text.utf8ByteSize ≤ 1024 * 1024 ∧ ∀ item ∈ items, item.url.utf8ByteSize ≤ 8192 := by
  obtain ⟨records, hrecords, hlisted, hsame⟩ := h.file text htext
  have hurls : (∀ item ∈ records, item.url.utf8ByteSize ≤ 8192) ↔
      ∀ item ∈ items, item.url.utf8ByteSize ≤ 8192 := by
    have hmap := congrArg (List.map Download.url) (hsame items hitems)
    simp only [List.map_map, Function.comp_def, reopened_url] at hmap
    have hall : ∀ l : List Download, (∀ item ∈ l, item.url.utf8ByteSize ≤ 8192) ↔
        ∀ url ∈ l.map (fun x => x.url), url.utf8ByteSize ≤ 8192 := fun l => by simp
    rw [hall, hmap, ← hall]
  have hrun : ((load app {}).run (step app s .restart)).1 =
      if 1024 * 1024 < text.utf8ByteSize then .error "下载记录过大" else restore app text := by
    have hfile : (step app s .restart).file = some text := htext
    unfold load
    rw [Prog.run_current_bind, hfile]
    show (Prog.run (Prog.bailIf _ _ >>= fun _ => Prog.lift (restore app text)) _).1 = _
    unfold Prog.bailIf
    split_ifs <;> rfl
  unfold Readable
  rw [hrun]
  constructor
  · rintro ⟨loaded, hloaded⟩
    split_ifs at hloaded with hsize
    exact ⟨Nat.le_of_not_lt hsize, hurls.1 ((hlisted.restore hrecords).1 hloaded).1⟩
  · rintro ⟨hsize, hall⟩
    rw [if_neg (Nat.not_lt.2 hsize)]
    exact ⟨_, (hlisted.restore hrecords).2 ⟨hurls.2 hall, rfl⟩⟩

/-! ### What stays listed -/

/-- Every active record is still there. -/
def Keeps (items next : List Download) : Prop :=
  ∀ item ∈ items, item.status.active = true → ∃ item' ∈ next, item'.id = item.id

def StillListed (items : List Download) (t : State) : Prop :=
  ∃ next, t.items = some next ∧ Keeps items next

theorem keeps_refl : Keeps items items := fun item hitem _ => ⟨item, hitem, rfl⟩

theorem keeps_update {front back : List Download} {item item' : Download} (hid : item'.id = item.id) :
    Keeps (front ++ item :: back) (front ++ item' :: back) := by
  intro x hx _
  rcases List.mem_append.1 hx with hx | hx
  · exact ⟨x, List.mem_append_left _ hx, rfl⟩
  · rcases List.mem_cons.1 hx with rfl | hx
    · exact ⟨item', by simp, hid⟩
    · exact ⟨x, List.mem_append_right _ (List.mem_cons_of_mem _ hx), rfl⟩

theorem wp_keeps (hitems : s.items = some items)
    (hedit : ∀ r next, edit items = .ok (r, next) → Keeps items next) :
    wp (change app io edit) (fun _ t => StillListed items t) (fun _ t => StillListed items t) s := by
  have hopens : ∀ l, Opens app s l → l = items := by
    rintro l (hl | ⟨hnone, -⟩)
    · exact Option.some.inj (hl.symm.trans hitems)
    · rw [hitems] at hnone
      exact absurd hnone (by simp)
  refine Prog.wp_mono change_spec ?_ ?_
  · rintro r t ⟨l, next, text, hl, hr, -, -, rfl⟩
    obtain rfl := hopens l hl
    exact ⟨next, rfl, hedit r next hr⟩
  · rintro e t (rfl | ⟨l, hl, rfl⟩)
    · exact ⟨items, hitems, keeps_refl⟩
    · exact ⟨l, rfl, hopens l hl ▸ keeps_refl⟩

theorem ended_id (success : Bool) (item : Download) : (item.ended success).id = item.id := by
  unfold Download.ended
  split_ifs <;> rfl

theorem settled_id (result : Except String (Option PathBuf)) (item : Download) :
    (item.settled result).id = item.id := by
  unfold Download.settled
  split <;> rfl

/-- An active record goes at a restart only. -/
theorem step_keeps {act : Act} (hitems : s.items = some items) (hact : act ≠ .restart) :
    StillListed items (step app s act) := by
  cases act with
  | request io id url fileName directory =>
    refine Prog.state_of_wp (P := StillListed items) (wp_keeps hitems fun r next hedit => ?_)
    obtain ⟨kept, name, -, -, hactive, -, -, -, rfl⟩ := requested_spec hedit
    intro item hitem ha
    have hmem : item ∈ kept.filter (·.status.active) := by
      rw [hactive]
      exact List.mem_filter.2 ⟨hitem, ha⟩
    exact ⟨item, List.mem_append_left _ (List.mem_filter.1 hmem).1, rfl⟩
  | finish io url path success =>
    refine Prog.state_of_wp (P := StillListed items) ?_
    unfold handleFinished
    rw [Prog.wp_bind]
    refine wp_keeps hitems fun r next hedit => ?_
    obtain ⟨front, item, back, rfl, -, hr⟩ := finished_spec hedit
    obtain ⟨-, rfl⟩ := Prod.mk.inj hr
    exact keeps_update (ended_id success item)
  | save index size chosen copy =>
    refine ⟨items, ?_, keeps_refl⟩
    show (save index size chosen copy s).items = _
    unfold save
    split <;> exact hitems
  | record io =>
    refine Prog.state_of_wp (P := StillListed items) ?_
    unfold record
    rw [Prog.wp_bind, Prog.wp_current]
    rcases hsaved : s.saved with _ | ⟨item, result⟩
    · exact ⟨items, hitems, keeps_refl⟩
    · rw [Prog.wp_bind, Prog.wp_update]
      refine wp_keeps (s := { s with saved := none }) hitems fun r next hedit => ?_
      obtain ⟨front, y, back, rfl, -, rfl⟩ := recorded_spec hedit
      exact keeps_update (settled_id result y)
  | list io =>
    refine Prog.state_of_wp (P := StillListed items) (wp_keeps hitems fun r next hedit => ?_)
    obtain ⟨-, rfl⟩ := Prod.mk.inj (Except.ok.inj hedit)
    exact keeps_refl
  | clear io =>
    refine Prog.state_of_wp (P := StillListed items) (wp_keeps hitems fun r next hedit => ?_)
    obtain ⟨-, rfl⟩ := Prod.mk.inj (Except.ok.inj hedit)
    exact fun item hitem ha => ⟨item, List.mem_filter.2 ⟨hitem, ha⟩, rfl⟩
  | reveal io id =>
    refine Prog.state_of_wp (P := StillListed items) (wp_keeps hitems fun r next hedit => ?_)
    obtain ⟨path, -, hedit⟩ := Fallible.bind_eq_ok.1 hedit
    obtain ⟨-, rfl⟩ := Prod.mk.inj (Except.ok.inj hedit)
    exact keeps_refl
  | restart => exact absurd rfl hact

/-! ### The end of a download -/

theorem partFile_inj {id id' : String} (h : app.partFile id = app.partFile id') : id = id' := by
  have htext := congrArg String.toList (PathBuf.utf8.inj h)
  simp only [String.toList_append] at htext
  have hid := List.append_cancel_left (List.append_cancel_right htext)
  exact String.toList_inj.1 hid

/-- A download ends once: by its temporary file, and by its address. -/
theorem finishes_unique {url : String} {path : Option PathBuf} {x y : Download}
    (h : Listed app ids s.copies items) (hx : x ∈ items) (hy : y ∈ items)
    (hfx : finishes url path x = true) (hfy : finishes url path y = true) : x = y := by
  unfold finishes at hfx hfy
  obtain ⟨hdx, hpx⟩ := Bool.and_eq_true_iff.1 hfx
  obtain ⟨hdy, hpy⟩ := Bool.and_eq_true_iff.1 hfy
  cases path with
  | none =>
    refine List.inj_on_of_nodup_map h.urls (List.mem_filter.2 ⟨hx, hdx⟩)
      (List.mem_filter.2 ⟨hy, hdy⟩) ?_
    rw [of_decide_eq_true hpx, of_decide_eq_true hpy]
  | some path =>
    have hown : ∀ z ∈ items, z.temporary = some path → path = app.partFile z.id :=
      fun z hz ht => (h.sound z hz).own path ht
    refine List.inj_on_of_nodup_map h.nodup hx hy (@partFile_inj app _ _ ?_)
    rw [← hown x hx (of_decide_eq_true hpx), ← hown y hy (of_decide_eq_true hpy)]

theorem map_update {front back : List Download} {item : Download} {f : Download → Download}
    (h : ((front ++ item :: back).map (·.id)).Nodup) :
    (front ++ item :: back).map (fun x => if x.id = item.id then f x else x) =
      front ++ f item :: back := by
  rw [List.map_append, List.map_cons, List.nodup_append, List.nodup_cons] at h
  have hfront : ∀ x ∈ front, x.id ≠ item.id := fun x hx =>
    h.2.2 _ (List.mem_map_of_mem hx) _ List.mem_cons_self
  have hback : ∀ x ∈ back, x.id ≠ item.id := fun x hx heq =>
    h.2.1.1 (heq ▸ List.mem_map_of_mem hx)
  have hkeep : ∀ l : List Download, (∀ x ∈ l, x.id ≠ item.id) →
      l.map (fun x => if x.id = item.id then f x else x) = l := fun l hl => by
    rw [List.map_congr_left fun x hx => if_neg (hl x hx), List.map_id']
  rw [List.map_append, List.map_cons, hkeep front hfront, hkeep back hback, if_pos rfl]

theorem wp_loaded {Q : List Download → State → Prop} {E : String → State → Prop}
    (hitems : s.items = some items) (h : Q items s) : wp (loaded app io) Q E s := by
  unfold loaded
  rw [Prog.wp_bind, Prog.wp_current, hitems]
  exact h

/-- A change of a list in memory, when it is written and when it is not. -/
theorem wp_change_eq {Q : α → State → Prop} {E : String → State → Prop} {next : List Download}
    {text : String} {r : α} (hitems : s.items = some items) (hedit : edit items = .ok (r, next))
    (htext : toVec next = .ok text)
    (hok : io.write = .ok () → Q r { s with items := some next, file := some text })
    (hfail : ∀ e, io.write = .error e → E e s) : wp (change app io edit) Q E s := by
  unfold change
  rw [Prog.wp_bind]
  refine wp_loaded hitems ?_
  rw [hedit, Prog.wp_bind, Prog.wp_lift]
  refine ⟨?_, fun e he => by cases he⟩
  rintro _ ⟨⟩
  rw [Prog.wp_bind, htext, Prog.wp_lift]
  refine ⟨?_, fun e he => by cases he⟩
  rintro _ ⟨⟩
  rw [Prog.wp_bind, Prog.wp_lift]
  exact ⟨fun _ hwrite => hok hwrite, hfail⟩

theorem wp_change_error {Q : α → State → Prop} {E : String → State → Prop} {e : String}
    (hitems : s.items = some items) (hedit : edit items = .error e) (hE : E e s) :
    wp (change app io edit) Q E s := by
  unfold change
  rw [Prog.wp_bind]
  refine wp_loaded hitems ?_
  rw [hedit, Prog.wp_bind, Prog.wp_lift]
  refine ⟨fun _ hok => (by cases hok), ?_⟩
  rintro _ ⟨⟩
  exact hE

theorem toVec_ok {next : List Download} (h : ∀ item ∈ next, WellFormed app item) :
    ∃ text, toVec next = .ok text := by
  have hmap : next.mapM Download.stored = .ok (next.map Download.record) := by
    induction next with
    | nil => rfl
    | cons item next ih =>
      rw [List.mapM_cons, (h item List.mem_cons_self).stored,
        ih fun x hx => h x (List.mem_cons_of_mem _ hx)]
      rfl
  exact ⟨_, Fallible.bind_eq_ok.2 ⟨_, hmap, rfl⟩⟩

/-- The end of a download changes its record, unless that cannot be written. -/
theorem finish_of {url : String} {path : Option PathBuf} {success : Bool} {item : Download}
    (h : Inv app ids s) (hitems : s.items = some items) (hitem : item ∈ items)
    (hfin : finishes url path item = true) :
    (io.write = .ok () → (step app s (.finish io url path success)).items =
      some (items.map fun x => if x.id = item.id then x.ended success else x)) ∧
    (io.write ≠ .ok () → (step app s (.finish io url path success)).items = some items) := by
  have hlisted := h.items items hitems
  obtain ⟨r, hr⟩ : ∃ r, finished url path success items = .ok r := by
    unfold finished
    rcases hedit : editFirst (finishes url path) (.ended success) items with _ | r
    · rw [editFirst_none.1 hedit item hitem] at hfin
      exact absurd hfin (by simp)
    · exact ⟨r, rfl⟩
  have hnext := hlisted.finished hr
  obtain ⟨text, htext⟩ := toVec_ok fun x hx => (hnext.sound x hx).toWellFormed
  have hmap : r.2 = items.map fun x => if x.id = item.id then x.ended success else x := by
    obtain ⟨front, x, back, rfl, hx, rfl⟩ := finished_spec hr
    obtain rfl := finishes_unique hlisted (by simp) hitem hx hfin
    exact (map_update hlisted.nodup).symm
  constructor
  · intro hwrite
    refine Prog.state_of_wp (P := fun t : State => t.items = _) ?_
    unfold handleFinished
    rw [Prog.wp_bind]
    refine wp_change_eq hitems hr htext (fun _ => ?_) fun e he => ?_
    · rw [← hmap]
      rfl
    · rw [hwrite] at he
      cases he
  · intro hwrite
    refine Prog.state_of_wp (P := fun t : State => t.items = _) ?_
    unfold handleFinished
    rw [Prog.wp_bind]
    exact wp_change_eq hitems hr htext (fun hw => absurd hw hwrite) fun _ _ => hitems

theorem finish_none {url : String} {path : Option PathBuf} {success : Bool}
    (hitems : s.items = some items) (hnone : ∀ item ∈ items, finishes url path item = false) :
    (step app s (.finish io url path success)).items = some items := by
  have hedit : finished url path success items = .error "下载记录未找到" := by
    unfold finished
    rw [editFirst_none.2 hnone]
    rfl
  refine Prog.state_of_wp (P := fun t : State => t.items = _) ?_
  unfold handleFinished
  rw [Prog.wp_bind]
  exact wp_change_error hitems hedit hitems

/-! ### Runs -/

theorem run_restart {acts more : List Act} : run app (acts ++ .restart :: more) =
    Runs.run (step app) (step app (run app acts) .restart) more := by
  rw [run, Runs.run_append]
  rfl

/-- What was going on at a restart, or had been interrupted before, is interrupted for good. -/
theorem stopped_restart {acts : List Act} {item : Download} (h : Promised app acts)
    (hitems : (run app acts).items = some items) (hitem : item ∈ items)
    (hstatus : item.status.active = true ∨ item.status = .interrupted) :
    Stopped app item.id (step app (run app acts) .restart) where
  items _ hl := by simp [step] at hl
  file text l htext hl x hx hid := by
    have hinv := run_inv h
    obtain ⟨records, hrecords, hlisted, hsame⟩ := hinv.file text htext
    obtain ⟨-, rfl⟩ := (hlisted.restore hrecords).1 hl
    rw [hsame items hitems] at hx
    obtain ⟨y, hy, rfl⟩ := List.mem_map.1 hx
    rw [reopened_id] at hid
    obtain rfl := List.inj_on_of_nodup_map (hinv.items items hitems).nodup hy hitem hid
    rw [reopened_status]
    rcases hstatus with hactive | hstopped
    · rw [if_pos hactive]
    · rw [hstopped]
      rfl
  waiting _ ht := by simp [step] at ht
  saved _ _ hs := by simp [step] at hs

theorem run_stopped {acts : List Act} {item : Download} (h : Promised app acts)
    (hitems : (run app acts).items = some items) (hitem : item ∈ items)
    (hstatus : item.status.active = true ∨ item.status = .interrupted) :
    ∀ more, Promised app (acts ++ .restart :: more) →
      Stopped app item.id (run app (acts ++ .restart :: more)) := by
  have hid : item.id ∈ acts.filterMap Act.newId :=
    (((run_inv h).items items hitems).sound item hitem).issued
  intro more
  rw [run_restart]
  refine Runs.run_induction (P := fun more t => Promised app (acts ++ .restart :: more) →
    Stopped app item.id t) (fun _ => stopped_restart h hitems hitem hstatus)
    (fun more act ih hmore => ?_) more
  have hsplit : acts ++ .restart :: (more ++ [act]) = (acts ++ .restart :: more) ++ [act] := by simp
  rw [hsplit] at hmore
  have hinv := run_inv hmore
  rw [run, Runs.run_concat] at hinv
  have hrun : Runs.run (step app) {} (acts ++ .restart :: more) =
      Runs.run (step app) (step app (run app acts) .restart) more := run_restart
  rw [hrun] at hinv
  refine (step_rests (ih hmore.prefix) fun hnew => ?_).stopped (ih hmore.prefix) hinv
  refine (hmore.next.1 item.id hnew).1 ?_
  rw [List.filterMap_append]
  exact List.mem_append_left _ hid

/-- What a run keeps of its downloads, in a state with these records in memory. -/
structure Kept (app : App) (acts : List Act) (items : List Download) : Prop where
  readable : ∀ text, (run app acts).file = some text →
    Readable app (step app (run app acts) .restart)
  active_le : (items.filter (·.status.active)).length ≤ 4
  listed_le : items.length ≤ 100
  keeps : ∀ act, act ≠ .restart → StillListed items (step app (run app acts) act)
  finish_of : ∀ io url path success, ∀ item ∈ items, finishes url path item = true →
    (io.write = .ok () → (step app (run app acts) (.finish io url path success)).items =
      some (items.map fun x => if x.id = item.id then x.ended success else x)) ∧
    (io.write ≠ .ok () →
      (step app (run app acts) (.finish io url path success)).items = some items)
  finish_none : ∀ io url path success, (∀ item ∈ items, finishes url path item = false) →
    (step app (run app acts) (.finish io url path success)).items = some items
  copied : ∀ item ∈ items, item.status = .completed →
    ∃ path, item.path = some path ∧ (app.partFile item.id, path) ∈ (run app acts).copies
  stopped : ∀ more next, Promised app (acts ++ .restart :: more) →
    (run app (acts ++ .restart :: more)).items = some next →
    ∀ item ∈ items, item.status.active = true ∨ item.status = .interrupted →
      ∀ item' ∈ next, item'.id = item.id → item'.status = .interrupted

/-- The file is at most 1 MiB long, and no address in it over 8192 bytes. -/
def Fits (app : App) (acts : List Act) (items : List Download) : Prop :=
  ∀ text, (run app acts).file = some text →
    text.utf8ByteSize ≤ 1024 * 1024 ∧ ∀ item ∈ items, item.url.utf8ByteSize ≤ 8192

/-- A run keeps its downloads exactly when what it has written is short enough to be read. -/
theorem kept_iff {acts : List Act} (h : Promised app acts) (hitems : (run app acts).items = some items) :
    Kept app acts items ↔ Fits app acts items := by
  have hinv := run_inv h
  have hlisted := hinv.items items hitems
  constructor
  · intro hkept text htext
    exact (readable_iff hinv hitems htext).1 (hkept.readable text htext)
  · intro hfits
    exact { readable := fun text htext => (readable_iff hinv hitems htext).2 (hfits text htext)
            active_le := hlisted.active_le
            listed_le := hlisted.length_le
            keeps := fun act hact => step_keeps hitems hact
            finish_of := fun io url path success item hitem hfin =>
              Downloads.finish_of hinv hitems hitem hfin
            finish_none := fun io url path success hnone => Downloads.finish_none hitems hnone
            copied := fun item hitem hs => (hlisted.sound item hitem).copied hs
            stopped := fun more next hmore hnext item hitem hstatus =>
              (run_stopped h hitems hitem hstatus more hmore).items next hnext }

def pageUrl (page : String) : Browser.Url where
  asStr := page
  scheme := "https"
  hostStr := some "a.test"
  origin := "https://a.test"

/-- An app that knows one page and one `Uuid`. -/
def onePage (page : String) : App where
  parseUrl value := if value = page then some (pageUrl page) else none
  dev := none
  parseUuid id := id = "6f9619ff-8b86-4011-b42d-00c04fc964ff"
  directory := "/cache/browser-downloads"

/-- A file that is downloaded and saved. -/
def oneSaved : List Act :=
  [.request {} "6f9619ff-8b86-4011-b42d-00c04fc964ff" "https://a.test/a.pdf" (some "a.pdf") (.ok ()),
    .finish {} "https://a.test/a.pdf"
      (some (.utf8 "/cache/browser-downloads/6f9619ff-8b86-4011-b42d-00c04fc964ff.part")) true,
    .save 0 (.ok 4096) (.ok (some (.utf8 "/home/a.pdf"))) (.ok ()), .record {}]

theorem kept_iff_saved :
    Kept (onePage "https://a.test/a.pdf") oneSaved
      [⟨"6f9619ff-8b86-4011-b42d-00c04fc964ff", "a.pdf", "https://a.test/a.pdf", .completed,
        some (.utf8 "/home/a.pdf"), none, none⟩] ↔
    Fits (onePage "https://a.test/a.pdf") oneSaved
      [⟨"6f9619ff-8b86-4011-b42d-00c04fc964ff", "a.pdf", "https://a.test/a.pdf", .completed,
        some (.utf8 "/home/a.pdf"), none, none⟩] :=
  kept_iff ⟨by decide, by decide, by decide⟩ (by rfl)

theorem stripBlob_blob (page : String) : stripBlob ("blob:" ++ page) = page := by
  have hchars : ("blob:" ++ page).toList = 'b' :: 'l' :: 'o' :: 'b' :: ':' :: page.toList := by
    rw [String.toList_append]
    rfl
  rw [stripBlob, hchars]
  exact String.ofList_toList

section blob

variable {page : String} (hpage : page.utf8ByteSize ≤ 8192)

include hpage

theorem requested_blob (id : String) :
    requested (onePage page) id ("blob:" ++ page) none (.ok ()) [] =
      .ok ((), [begun (onePage page) id "下载文件" ("blob:" ++ page)]) := by
  have hlink : Browser.validateLink (onePage page).parseUrl (onePage page).dev page =
      .ok (pageUrl page) := by
    have hparse : (onePage page).parseUrl page = some (pageUrl page) := if_pos rfl
    have hallowed : Browser.allowed (pageUrl page) (onePage page).dev = true := by
      simp [Browser.allowed, pageUrl, onePage, hpage]
    unfold Browser.validateLink
    rw [hparse]
    simp [orError, bind, Except.bind, hallowed, bailIf, Nat.not_lt.2 hpage]
  unfold requested
  rw [stripBlob_blob, hlink]
  rfl

/-- An address that is just short enough without its `blob:` is written and not read again. -/
theorem blob_not_kept (hlong : 8187 < page.utf8ByteSize) :
    ∃ items, (run (onePage page) [.list {}, .request {} "6f9619ff-8b86-4011-b42d-00c04fc964ff"
        ("blob:" ++ page) none (.ok ())]).items = some items ∧
      ¬Kept (onePage page) [.list {}, .request {} "6f9619ff-8b86-4011-b42d-00c04fc964ff"
        ("blob:" ++ page) none (.ok ())] items := by
  have hpromised : Promised (onePage page) [.list {},
      .request {} "6f9619ff-8b86-4011-b42d-00c04fc964ff" ("blob:" ++ page) none (.ok ())] :=
    ⟨by simp [List.filterMap, Act.newId], by simp [List.filterMap, Act.newId, onePage],
      by simp [List.filterMap, Act.dialog]⟩
  have hreq := requested_blob hpage "6f9619ff-8b86-4011-b42d-00c04fc964ff"
  have hwell : ∀ item ∈ [begun (onePage page) "6f9619ff-8b86-4011-b42d-00c04fc964ff" "下载文件"
      ("blob:" ++ page)], WellFormed (onePage page) item := by
    intro item hitem
    obtain rfl := List.mem_singleton.1 hitem
    refine ⟨by simp [begun, onePage], ?_, fun _ hp => by simp [begun] at hp⟩
    exact (by decide : "下载文件".length ≤ 180)
  obtain ⟨text, htext⟩ := toVec_ok hwell
  have hlisted : (run (onePage page) [.list {}]).items = some [] := rfl
  have hrun : run (onePage page) [.list {}, .request {} "6f9619ff-8b86-4011-b42d-00c04fc964ff"
      ("blob:" ++ page) none (.ok ())] =
        { run (onePage page) [.list {}] with
          items := some [begun (onePage page) "6f9619ff-8b86-4011-b42d-00c04fc964ff" "下载文件"
            ("blob:" ++ page)]
          file := some text } :=
    Prog.state_of_wp (P := fun t : State => t = _) (wp_change_eq hlisted hreq htext (fun _ => rfl)
      fun e he => by cases he)
  have hitems := congrArg State.items hrun
  have hfile := congrArg State.file hrun
  refine ⟨_, hitems, fun hkept => ?_⟩
  have hread := (readable_iff (run_inv hpromised) hitems hfile).1 (hkept.readable text hfile)
  have hsize := hread.2 _ List.mem_cons_self
  have hblob : "blob:".utf8ByteSize = 5 := rfl
  simp only [begun, String.utf8ByteSize_append, hblob] at hsize
  omega

end blob

/-- A page of 8192 bytes. -/
def longPage : String :=
  "https://a.test/0f8fad5b-d9cb-469f-a165-70867728950e#" ++ String.ofList (List.replicate 8140 'x')

theorem size_replicate (n : ℕ) : (String.ofList (List.replicate n 'x')).utf8ByteSize = n := by
  rw [← String.utf8Len_toList, String.toList_ofList, Json.utf8Len_of_ascii fun c hc => ?_,
    List.length_replicate]
  obtain rfl := List.eq_of_mem_replicate hc
  decide

theorem longPage_size : longPage.utf8ByteSize = 8192 := by
  have hpage : ∀ fragment : String,
      ("https://a.test/0f8fad5b-d9cb-469f-a165-70867728950e#" ++ fragment).utf8ByteSize =
        52 + fragment.utf8ByteSize := fun _ => String.utf8ByteSize_append
  exact (hpage _).trans (congrArg (52 + ·) (size_replicate 8140))

/-- The address of that page behind `blob:`. -/
theorem not_kept_blob : ∃ items,
    (run (onePage longPage) [.list {}, .request {} "6f9619ff-8b86-4011-b42d-00c04fc964ff"
      ("blob:" ++ longPage) none (.ok ())]).items = some items ∧
    ¬Kept (onePage longPage) [.list {}, .request {} "6f9619ff-8b86-4011-b42d-00c04fc964ff"
      ("blob:" ++ longPage) none (.ok ())] items :=
  blob_not_kept longPage_size.le (by
    have hsize := longPage_size
    omega)

end Downloads

end LatteWork
