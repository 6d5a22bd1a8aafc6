import LatteWork.Proofs.JsonReading
import LatteWork.Workbench.Workspace
import Mathlib.Data.List.Nodup
import Mathlib.Tactic.NormNum

/-!
# Tabs that are read back

What an operation opens is a tab that `readWorkspace` recognises, but for a few inputs. A state of such
tabs is read from its text as it was written: no tab is dropped, none is merged, and the current one
is still there.
-/

namespace LatteWork

/-! ### Maps -/

namespace TaskInfo

variable {β : Type} {map : List (String × β)} {key k : String} {v : β}

theorem mem_set {p : String × β} (h : p ∈ set map key v) : p = (key, v) ∨ p ∈ map := by
  unfold set at h
  split_ifs at h
  · obtain ⟨q, hq, rfl⟩ := List.mem_map.1 h
    split_ifs
    · exact .inl rfl
    · exact .inr hq
  · rcases List.mem_append.1 h with h | h
    · exact .inr h
    · exact .inl (List.mem_singleton.1 h)

theorem keys_set : (set map key v).map (·.1) = if has map key then map.map (·.1) else map.map (·.1) ++ [key] := by
  unfold set
  split_ifs
  · rw [List.map_map]
    refine List.map_congr_left fun p _ => ?_
    simp only [Function.comp_apply]
    split_ifs with hp
    · exact hp.symm
    · rfl
  · rw [List.map_append]
    rfl

theorem has_iff : has map key = true ↔ key ∈ map.map (·.1) := by
  simp [has]

theorem nodup_set (h : (map.map (·.1)).Nodup) : ((set map key v).map (·.1)).Nodup := by
  rw [keys_set]
  split_ifs with hhas
  · exact h
  · rw [has_iff] at hhas
    rw [List.nodup_append]
    refine ⟨h, List.nodup_singleton key, ?_⟩
    rintro a ha b hb rfl
    exact hhas (List.mem_singleton.1 hb ▸ ha)

theorem lookup_set : (set map key v).lookup k = if k = key then some v else map.lookup k := by
  have hmap : (map.map fun p => if p.1 = key then (key, v) else p).lookup k =
      if k = key then (map.lookup key).map fun _ => v else map.lookup k := by
    induction map with
    | nil => simp
    | cons p rest ih =>
      rw [List.map_cons, List.lookup_cons, List.lookup_cons, List.lookup_cons, ih]
      by_cases hp : p.1 = key
      · by_cases hk : k = key
        · simp [hp, hk]
        · have hbeq : (k == key) = false := by simpa using hk
          simp [hp, hk, hbeq]
      · by_cases hk : k = key
        · have hbeq : (key == p.1) = false := by simpa using Ne.symm hp
          simp [hp, hk, hbeq]
        · simp [hp, hk]
  unfold set
  split_ifs with hhas hk hk
  · rw [hmap, if_pos hk]
    rw [has_iff] at hhas
    rcases hlook : map.lookup key with _ | w
    · obtain ⟨p, hp, hpk⟩ := List.mem_map.1 hhas
      exact absurd hpk (Assoc.lookup_eq_none.1 hlook p hp)
    · rfl
  · rw [hmap, if_neg hk]
  · have hnone : map.lookup key = none := Assoc.lookup_eq_none.2 fun p hp hpk =>
      hhas (has_iff.2 (List.mem_map.2 ⟨p, hp, hpk⟩))
    rw [Assoc.lookup_append, hk, hnone, List.lookup_cons, beq_self_eq_true]
    rfl
  · have hbeq : (k == key) = false := by simpa using hk
    rw [Assoc.lookup_append, List.lookup_cons, hbeq]
    exact Option.or_none

end TaskInfo

namespace Workspace

variable {parse : String → Option Resources.Url} {uuids : List String}

/-! ### Tabs -/

/-- A tab that is recognised. An id of the form of a `Uuid` is one that was given out. -/
structure GoodTab (parse : String → Option Resources.Url) (uuids : List String) (tab : Tab) : Prop where
  named : ∃ id, tab.id = some id ∧ (uuidPattern id.toList = true → id ∈ uuids)
  valid : tab.valid parse = some true
  kind : tab.text "kind" ≠ some "turnChanges"
  keys : (tab.fields.map (·.1)).Nodup
  values : ∀ f ∈ tab.fields, f.2.Textual

structure Good (parse : String → Option Resources.Url) (uuids : List String) (state : WorkspaceState) :
    Prop where
  tabs : ∀ tab ∈ state.tabs, GoodTab parse uuids tab
  nodup : (state.tabs.map Tab.id).Nodup
  current : (∃ tab ∈ state.tabs, tab.id = some state.current) ∨ (state.tabs = [] ∧ state.current = "")
  conversation : state.expanded = true → state.tabs = [] → state.conversationActive = true
  width : atLeast state.width = state.width
  browsers : (state.tabs.filter isBrowser).length ≤ 32

theorem initial_good : Good parse uuids initial where
  tabs := by simp [initial]
  nodup := by simp [initial]
  current := .inr ⟨rfl, rfl⟩
  conversation := by simp [initial]
  width := by decide +kernel
  browsers := by simp [initial]

theorem keepTabs_good : ∀ {tabs : List Tab} {ids : List String}, (∀ tab ∈ tabs, GoodTab parse uuids tab) →
    (tabs.map Tab.id).Nodup → (∀ tab ∈ tabs, ∀ id ∈ ids, tab.id ≠ some id) →
    keepTabs parse ids (tabs.map fun tab => .obj tab.fields) = some tabs
  | [], _, _, _, _ => rfl
  | tab :: rest, ids, hgood, hnodup, hnew => by
    obtain ⟨id, hid, -⟩ := (hgood tab List.mem_cons_self).named
    have hvalid := (hgood tab List.mem_cons_self).valid
    have hfresh : id ∉ ids := fun hmem => hnew tab List.mem_cons_self id hmem hid
    rw [List.map_cons, List.nodup_cons] at hnodup
    have hrest : keepTabs parse (ids ++ [id]) (rest.map fun tab => .obj tab.fields) = some rest :=
      keepTabs_good (fun t ht => hgood t (List.mem_cons_of_mem _ ht)) hnodup.2 (fun t ht i hi => by
        rcases List.mem_append.1 hi with hi | hi
        · exact hnew t (List.mem_cons_of_mem _ ht) i hi
        · obtain rfl := List.mem_singleton.1 hi
          exact fun heq => hnodup.1 (hid ▸ heq ▸ List.mem_map_of_mem ht))
    have htab : (⟨tab.fields⟩ : Tab) = tab := rfl
    rw [List.map_cons, keepTabs, htab, hid]
    simp only [hfresh, if_false, hvalid, hrest, Option.map_some]

theorem merged_good {tabs : List Tab} (current : Option String)
    (h : ∀ tab ∈ tabs, tab.text "kind" ≠ some "turnChanges") : merged tabs current = (tabs, current) := by
  have hnone : ((tabs.filter isReview).any fun tab => tab.text "kind" = some "turnChanges") = false := by
    rw [List.any_eq_false]
    intro tab htab
    simpa using h tab (List.mem_filter.1 htab).1
  unfold merged
  simp only [hnone, Bool.false_eq_true, if_false]
  split <;> rfl

/-- The text of a state is read as the object that it was printed from. -/
theorem parse_stringify {state : WorkspaceState}
    (h : ∀ tab ∈ state.tabs, (tab.fields.map (·.1)).Nodup ∧ ∀ f ∈ tab.fields, f.2.Textual) :
    Json.parse (stringify state).toList = some (.obj [("tabs", .arr (state.tabs.map fun tab => .obj tab.fields)),
      ("current", .str state.current), ("visible", .bool state.visible),
      ("expanded", .bool state.expanded), ("conversationActive", .bool state.conversationActive),
      ("width", .num state.width.text)]) := by
  have hwidth := state.width.isNumber
  refine Json.parse_render ?_
  simp only [Json.Textual, Json.TextualFields, hwidth, and_true]
  refine ⟨by simp, ?_⟩
  rw [Json.textualItems_iff]
  intro v hv
  obtain ⟨tab, htab, rfl⟩ := List.mem_map.1 hv
  exact ⟨(h tab htab).1, Json.textualFields_iff.2 (h tab htab).2⟩

/-- What was written of a good state is that state again. -/
theorem readState_stringify {state : WorkspaceState} (h : Good parse uuids state) :
    readState parse (some (stringify state)) = state := by
  have hkeep : keepTabs parse [] (state.tabs.map fun tab => .obj tab.fields) = some state.tabs :=
    keepTabs_good h.tabs h.nodup (by simp)
  have hmerged := merged_good (some state.current) fun tab htab => (h.tabs tab htab).kind
  have hparse := parse_stringify fun tab htab => ⟨(h.tabs tab htab).keys, (h.tabs tab htab).values⟩
  have hwidth : readWidth (some (.num state.width.text)) = state.width := by
    rw [readWidth, dif_pos state.width.isNumber]
    exact h.width
  have hcurrent : (state.tabs.any fun tab => tab.id = some state.current) = false →
      state.tabs = [] ∧ state.current = "" := by
    intro hnone
    refine h.current.resolve_left ?_
    rintro ⟨tab, htab, hid⟩
    rw [List.any_eq_false] at hnone
    exact hnone tab htab (by simpa using hid)
  generalize hsaved : Json.obj _ = saved at hparse
  have htabs : saved.get? "tabs" = some (.arr (state.tabs.map fun tab => .obj tab.fields)) := hsaved ▸ rfl
  have hid : saved.get? "current" = some (.str state.current) := hsaved ▸ rfl
  have hvisible : saved.get? "visible" = some (.bool state.visible) := hsaved ▸ rfl
  have hexpanded : saved.get? "expanded" = some (.bool state.expanded) := hsaved ▸ rfl
  have hactive : saved.get? "conversationActive" = some (.bool state.conversationActive) := hsaved ▸ rfl
  have hsize : saved.get? "width" = some (.num state.width.text) := hsaved ▸ rfl
  unfold readState
  rw [Option.getD_some, hparse]
  simp only [htabs, hid, hvisible, hexpanded, hactive, hsize, hkeep, hmerged, hwidth, Option.bind_some,
    Json.str?]
  obtain ⟨tabs, current, visible, expanded, conversationActive, width⟩ := state
  have hconversation := h.conversation
  dsimp only at hcurrent hconversation ⊢
  have hid : (if (tabs.any fun tab => decide (tab.id = some current)) = true then current
      else (tabs.getLast?.bind Tab.id).getD "") = current := by
    split_ifs with hany
    · rfl
    · obtain ⟨rfl, rfl⟩ := hcurrent (by simpa using hany)
      rfl
  have hempty : (tabs.map fun tab => Json.obj tab.fields).isEmpty = tabs.isEmpty := by
    cases tabs <;> rfl
  have hactive : (conversationActive || expanded && tabs.isEmpty) = conversationActive := by
    cases hexp : expanded
    · simp
    · rcases tabs with _ | ⟨tab, rest⟩
      · rw [hconversation hexp rfl]
        rfl
      · simp
  rw [hid, hactive, hempty]
  congr 1
  cases visible <;> cases tabs <;> simp

/-! ### What the operations open -/

theorem uuidPattern_cons {c : Char} {rest : List Char} (h : isLowerHex c = false) :
    uuidPattern (c :: rest) = false := by
  simp [uuidPattern, h]

/-- An id that begins with no digit is none that is given out. -/
theorem named_of_first {tab : Tab} {i : String} {c : Char} {rest : List Char} (hid : tab.id = some i)
    (hchars : i.toList = c :: rest) (hc : isLowerHex c = false) :
    ∃ id, tab.id = some id ∧ (uuidPattern id.toList = true → id ∈ uuids) := by
  refine ⟨i, hid, fun h => ?_⟩
  rw [hchars, uuidPattern_cons hc] at h
  exact absurd h (by simp)

/-- The keys of an object are among those it is written with. -/
theorem object_keys {fields : List (String × Option Json)} (h : (fields.map (·.1)).Nodup) :
    ((Tab.object fields).fields.map (·.1)).Nodup := by
  refine h.sublist ?_
  unfold Tab.object
  clear h
  induction fields with
  | nil => exact List.Sublist.refl _
  | cons f rest ih =>
    rcases f with ⟨key, _ | v⟩
    · exact ih.cons key
    · exact ih.cons_cons key

theorem object_values {fields : List (String × Option Json)}
    (h : ∀ f ∈ fields, ∀ v, f.2 = some v → v.Textual) : ∀ f ∈ (Tab.object fields).fields, f.2.Textual := by
  intro f hf
  obtain ⟨g, hg, hgf⟩ := List.mem_filterMap.1 hf
  obtain ⟨v, hv, rfl⟩ := Option.map_eq_some_iff.1 hgf
  exact h g hg v hv

theorem kind_ne {tab : Tab} {k : String} (h : tab.text "kind" = some k)
    (hkind : k ≠ "turnChanges") : tab.text "kind" ≠ some "turnChanges" := by
  rw [h]
  exact fun heq => hkind (Option.some.inj heq)

theorem textual_map_str {s : Option String} {v : Json} (h : s.map Json.str = some v) : v.Textual := by
  obtain ⟨t, -, rfl⟩ := Option.map_eq_some_iff.1 h
  trivial

theorem subagents_good : GoodTab parse uuids (soleTab "subagents") where
  named := named_of_first (c := 's') (i := "subagents") rfl rfl rfl
  valid := rfl
  kind := kind_ne rfl (by decide)
  keys := object_keys (by simp)
  values := by simp [soleTab, Tab.object, Json.Textual]

theorem taskInfo_good : GoodTab parse uuids (soleTab "taskInfo") where
  named := named_of_first (c := 't') (i := "taskInfo") rfl rfl rfl
  valid := rfl
  kind := kind_ne rfl (by decide)
  keys := object_keys (by simp)
  values := by simp [soleTab, Tab.object, Json.Textual]

theorem isName_str {s : String} (h : s ≠ "") : isName (some (.str s)) = true := by
  simpa [isName] using h

theorem subagent_good {task : Subagent} (h : task.id ≠ "") :
    GoodTab parse uuids (subagentTab task) where
  named := named_of_first (c := 's') (i := "subagent:" ++ task.id) rfl
    (by rw [String.toList_append]; rfl) rfl
  valid := by
    show some (isName (some (.str task.id)) && true) = some true
    rw [isName_str h]
    rfl
  kind := kind_ne rfl (by decide)
  keys := object_keys (by simp)
  values := by simp [subagentTab, Tab.object, Json.Textual]

/-- A tab of a place is recognised by its fields. -/
theorem location_valid {tab : Tab} {kind : String} (hkind : tab.text "kind" = some kind)
    (hlocation : kind ∈ ["files", "diff", "subagents", "taskInfo"])
    (hpath : isOptionalText (tab.get "path") = true) (hfile : isOptionalText (tab.get "file") = true)
    (hreference : tab.referenceValid = some true)
    (hdiff : kind ≠ "diff" ∨ tab.get "requestId" = none ∨
      isName (tab.get "requestId") = true ∧ isBounded 256 (tab.get "requestId") = true ∧
        isName (tab.get "snapshotSessionId") = true) : tab.valid parse = some true := by
  have hvalid : tab.locationValid = some true := by
    unfold Tab.locationValid
    rw [hpath, hfile, hreference, hkind]
    rcases hdiff with hne | hnone | ⟨hname, hbound, hsession⟩
    · simp [hne]
    · simp [hnone]
    · simp [hname, hbound, hsession]
  unfold Tab.valid
  rw [hkind]
  simp only [List.mem_cons, List.not_mem_nil, or_false] at hlocation
  rcases hlocation with rfl | rfl | rfl | rfl <;> exact hvalid

theorem location_keys (location : Location) : (location.fields.map (·.1)).Sublist ["path", "file"] := by
  obtain ⟨_ | path, _ | file⟩ := location <;> simp [Location.fields]

theorem location_values (location : Location) :
    ∀ f ∈ location.fields, ∀ v, f.2 = some v → v.Textual := by
  intro f hf v hv
  rcases List.mem_append.1 hf with hf | hf
  · obtain ⟨path, -, rfl⟩ := Option.map_eq_some_iff.1 (Option.mem_toList.1 hf)
    exact textual_map_str hv
  · obtain ⟨file, -, rfl⟩ := Option.map_eq_some_iff.1 (Option.mem_toList.1 hf)
    exact textual_map_str hv

theorem resource_good (kind : ResourceKind) (location : Location) :
    GoodTab parse uuids (resourceTab kind location) where
  named := by
    refine ⟨kind.name, rfl, fun h => ?_⟩
    cases kind <;> exact absurd h (by decide)
  valid := by
    obtain ⟨_ | _ | path, _ | _ | file⟩ := location <;> cases kind <;> rfl
  kind := kind_ne (k := kind.name) rfl (by cases kind <;> decide)
  keys := by
    refine object_keys ?_
    have hall : (["id", "kind"] ++ ["path", "file"]).Nodup := by decide
    rw [List.map_append]
    exact hall.sublist ((location_keys location).append_left ["id", "kind"])
  values := by
    refine object_values fun f hf => ?_
    rcases List.mem_append.1 hf with hf | hf
    · simp only [List.mem_cons, List.not_mem_nil, or_false] at hf
      rcases hf with rfl | rfl <;> rintro _ ⟨⟩ <;> trivial
    · exact location_values location f hf

theorem turn_good {sessionId requestId : String} {time : Option Number} {file : Option String}
    (hrequest : requestId ≠ "") (hlen : utf16Length requestId ≤ 256) (hsession : sessionId ≠ "") :
    GoodTab parse uuids (turnTab sessionId requestId time file) where
  named := ⟨"diff", rfl, fun h => absurd h (by decide)⟩
  valid := by
    have hbound : isBounded 256 (some (.str requestId)) = true := by simpa [isBounded] using hlen
    have hrecorded := And.intro (isName_str hrequest) (And.intro hbound (isName_str hsession))
    cases file <;> exact location_valid rfl (by simp) rfl rfl rfl (.inr (.inr hrecorded))
  kind := kind_ne rfl (by decide)
  keys := object_keys (by simp)
  values := by
    refine object_values ?_
    simp only [List.forall_mem_cons, List.not_mem_nil, false_imp_iff, implies_true, and_true]
    refine ⟨by rintro _ ⟨⟩; trivial, by rintro _ ⟨⟩; trivial, by rintro _ ⟨⟩; trivial,
      by rintro _ ⟨⟩; trivial, ?_, fun _ => textual_map_str⟩
    rintro _ ⟨⟩
    cases time with
    | none => trivial
    | some n => exact n.isNumber

/-- An address that is accepted is accepted again, unless it has become too long. -/
theorem webLink_again {value url : String} (hparse : ∀ v u, parse v = some u → parse u.href = some u)
    (h : Resources.webLink parse value = some url) :
    Resources.webLink parse url = if 8192 < utf16Length url then none else some url := by
  unfold Resources.webLink at h
  split_ifs at h with hlen
  rcases hv : parse value with _ | u
  · rw [hv] at h
    exact absurd h (by simp)
  · rw [hv] at h
    dsimp only at h
    split_ifs at h with hok
    obtain rfl := Option.some.inj h
    have hu := hparse value u hv
    unfold Resources.webLink
    rw [hu]
    simp only [hok, and_self, if_true, ne_eq, not_false_eq_true]

theorem browser_good {url uuid title : String} (huuid : uuid ∈ uuids)
    (hpattern : uuidPattern uuid.toList = true)
    (hurl : url = "" ∨ (Resources.webLink parse url).isSome = true) :
    GoodTab parse uuids (browserTab url uuid title) where
  named := ⟨uuid, rfl, fun _ => huuid⟩
  valid := by
    have hlink : (decide (url = "") || (Resources.webLink parse url).isSome) = true := by
      rcases hurl with h | h
      · simp [h]
      · simp [h]
    show some (uuidPattern uuid.toList && true &&
      (decide (url = "") || (Resources.webLink parse url).isSome)) = some true
    rw [hpattern, hlink]
    rfl
  kind := kind_ne rfl (by decide)
  keys := object_keys (by simp)
  values := by simp [browserTab, Tab.object, Json.Textual]

/-- A path that begins at the root is its own host path. -/
theorem hostPath_root {project : Option Project} {path : String} (h : path.toList.head? = some '/') :
    hostPath project path = path := by
  unfold hostPath
  cases project with
  | none => rfl
  | some project => exact if_pos h

/-- A tab of files, with a reference or none. -/
theorem files_good {hostId sessionId : Option String} {project : Option Project}
    {reference : Option Json} {path file : String}
    (h : reference = none ∨ ∃ name place directory, reference = some (.obj [("name", .str name),
      ("path", .str place), ("directory", .bool directory)]) ∧ place ≠ "") :
    GoodTab parse uuids (.object [("id", some (.str "files")), ("kind", some (.str "files")),
      ("hostId", hostId.map Json.str), ("project", project.map Project.toJson),
      ("sessionId", sessionId.map Json.str), ("reference", reference), ("path", some (.str path)),
      ("file", some (.str file))]) where
  named := by
    refine ⟨"files", by cases hostId <;> cases project <;> cases sessionId <;> cases reference <;> rfl,
      fun hpattern => ?_⟩
    exact absurd hpattern (by decide)
  valid := by
    rcases h with rfl | ⟨name, place, directory, rfl, hplace⟩
    · cases hostId <;> cases project <;> cases sessionId <;> rfl
    · have hname := isName_str hplace
      have hreference : some (isName (some (.str place)) && true && true) = some true := by rw [hname]; rfl
      cases hostId <;> cases project <;> cases sessionId <;>
        exact location_valid rfl (by simp) rfl rfl hreference (.inl (by decide))
  kind := kind_ne (k := "files")
    (by cases hostId <;> cases project <;> cases sessionId <;> cases reference <;> rfl) (by decide)
  keys := object_keys (by simp)
  values := by
    refine object_values ?_
    simp only [List.forall_mem_cons, List.not_mem_nil, false_imp_iff, implies_true, and_true]
    refine ⟨by rintro _ ⟨⟩; trivial, by rintro _ ⟨⟩; trivial, fun _ => textual_map_str, ?_,
      fun _ => textual_map_str, ?_, by rintro _ ⟨⟩; trivial, by rintro _ ⟨⟩; trivial⟩
    · intro v hv
      obtain ⟨p, -, rfl⟩ := Option.map_eq_some_iff.1 hv
      simp [Project.toJson, Json.Textual, Json.TextualFields]
    · rintro v rfl
      rcases h with h | ⟨name, place, directory, h, -⟩
      · exact absurd h (by simp)
      · obtain rfl := Option.some.inj h
        simp [Json.Textual, Json.TextualFields]

theorem artifact_good {entry : FileEntry} {owner : Owner} {selectedFile : Option String}
    (h : entry.directory = true → hostPath owner.project entry.path ≠ "") :
    GoodTab parse uuids (artifactTab entry owner selectedFile) := by
  unfold artifactTab
  refine files_good ?_
  split_ifs with href
  · refine .inr ⟨_, _, _, rfl, ?_⟩
    rcases href with hroot | hdir
    · rw [hostPath_root hroot]
      intro hempty
      rw [hempty] at hroot
      exact absurd hroot (by decide)
    · exact h hdir
  · exact .inl rfl

theorem assign_append (tab : Tab) (fields more : List (String × Option Json)) :
    tab.assign (fields ++ more) = (tab.assign fields).assign more := by
  simp [Tab.assign, List.foldl_append]

/-- A field that is not assigned is what it was. -/
theorem assign_get {key : String} : ∀ {fields : List (String × Option Json)} {tab : Tab},
    (∀ f ∈ fields, f.1 ≠ key) → (tab.assign fields).get key = tab.get key
  | [], tab, _ => rfl
  | f :: rest, tab, h => by
    have hne := h f List.mem_cons_self
    have hrest := fun g hg => h g (List.mem_cons_of_mem _ hg)
    rw [← List.singleton_append, assign_append, assign_get hrest]
    rcases f with ⟨k, _ | v⟩
    · exact Assoc.lookup_drop.trans (if_neg hne.symm)
    · exact TaskInfo.lookup_set.trans (if_neg hne.symm)

theorem assign_keys : ∀ {fields : List (String × Option Json)} {tab : Tab},
    (tab.fields.map (·.1)).Nodup → ((tab.assign fields).fields.map (·.1)).Nodup
  | [], _, h => h
  | ⟨k, none⟩ :: rest, tab, h =>
    @assign_keys rest ⟨Assoc.drop k tab.fields⟩ (Assoc.nodup_drop h)
  | ⟨k, some v⟩ :: rest, tab, h =>
    @assign_keys rest ⟨TaskInfo.set tab.fields k v⟩ (TaskInfo.nodup_set h)

theorem assign_values : ∀ {fields : List (String × Option Json)} {tab : Tab},
    (∀ f ∈ tab.fields, f.2.Textual) → (∀ f ∈ fields, ∀ v, f.2 = some v → v.Textual) →
    ∀ f ∈ (tab.assign fields).fields, f.2.Textual
  | [], tab, h, _ => h
  | ⟨k, none⟩ :: rest, tab, h, hfields =>
    @assign_values rest ⟨Assoc.drop k tab.fields⟩
      (fun f hf => h f (Assoc.mem_drop.1 hf).1) fun f hf => hfields f (List.mem_cons_of_mem _ hf)
  | ⟨k, some v⟩ :: rest, tab, h, hfields => by
    refine @assign_values rest ⟨TaskInfo.set tab.fields k v⟩ (fun f hf => ?_)
      fun f hf => hfields f (List.mem_cons_of_mem _ hf)
    rcases TaskInfo.mem_set hf with rfl | hf
    · exact hfields _ List.mem_cons_self v rfl
    · exact h f hf

theorem assign_text {key : String} {fields : List (String × Option Json)} {tab : Tab}
    (h : ∀ f ∈ fields, f.1 ≠ key) : (tab.assign fields).text key = tab.text key := by
  unfold Tab.text
  rw [assign_get h]

/-- A field that is text, or is left out, stays so where texts are assigned. -/
theorem assign_optionalText {key : String} : ∀ {fields : List (String × Option Json)} {tab : Tab},
    isOptionalText (tab.get key) = true → (∀ f ∈ fields, isOptionalText f.2 = true) →
    isOptionalText ((tab.assign fields).get key) = true
  | [], _, h, _ => h
  | ⟨k, v⟩ :: rest, tab, h, hfields => by
    rw [← List.singleton_append, assign_append]
    refine assign_optionalText ?_ fun f hf => hfields f (List.mem_cons_of_mem _ hf)
    have hv := hfields _ List.mem_cons_self
    cases v with
    | none =>
      show isOptionalText ((Assoc.drop k tab.fields).lookup key) = true
      rw [Assoc.lookup_drop]
      split_ifs
      · rfl
      · exact h
    | some v =>
      show isOptionalText ((TaskInfo.set tab.fields k v).lookup key) = true
      rw [TaskInfo.lookup_set]
      split_ifs
      · exact hv
      · exact h

theorem artifact_id {entry : FileEntry} {owner : Owner} {selectedFile : Option String} :
    (artifactTab entry owner selectedFile).id = some "files" := rfl

theorem artifact_kind {entry : FileEntry} {owner : Owner} {selectedFile : Option String} :
    (artifactTab entry owner selectedFile).text "kind" = some "files" := rfl

/-- The place of a tab is written into four fields. -/
theorem location_text {tab : Tab} {location : Location} {key : String}
    (hkey : key ∉ ["reference", "sessionId"] ++ ["path", "file"]) :
    (tab.assign ([("reference", none), ("sessionId", none)] ++ location.fields)).text key =
      tab.text key := by
  refine assign_text ?_
  rintro f hf rfl
  rcases List.mem_append.1 hf with hf | hf
  · exact hkey (List.mem_append_left _ (List.mem_map_of_mem (f := Prod.fst) hf))
  · exact hkey (List.mem_append_right _ ((location_keys location).subset (List.mem_map_of_mem hf)))

/-- A tab of files that is shown at another place. -/
theorem assign_good {tab : Tab} {location : Location} (h : GoodTab parse uuids tab)
    (hid : tab.id = some "files") (hkind : tab.text "kind" = some "files") :
    GoodTab parse uuids
      (tab.assign ([("reference", none), ("sessionId", none)] ++ location.fields)) := by
  have hkeys := (location_keys location).subset
  have hreference : (tab.assign ([("reference", none), ("sessionId", none)] ++ location.fields)).get
      "reference" = none := by
    have hlocation : ∀ f ∈ ("sessionId", none) :: location.fields, f.1 ≠ "reference" := by
      rintro f hf
      rcases List.mem_cons.1 hf with rfl | hf
      · decide
      · rintro hkey
        have hmem := hkeys (List.mem_map_of_mem hf)
        rw [hkey] at hmem
        exact absurd hmem (by decide)
    show (Tab.assign _ ([("reference", none)] ++ ("sessionId", none) :: location.fields)).get _ = _
    rw [assign_append, assign_get hlocation]
    exact Assoc.lookup_drop.trans (if_pos rfl)
  have htexts : ∀ f ∈ [("reference", none), ("sessionId", none)] ++ location.fields,
      isOptionalText f.2 = true := by
    obtain ⟨_ | _ | path, _ | _ | file⟩ := location <;> simp [Location.fields, isOptionalText, isText]
  have hvalid : tab.locationValid = some true := by
    have hvalid := h.valid
    unfold Tab.valid at hvalid
    rw [hkind] at hvalid
    exact hvalid
  unfold Tab.locationValid at hvalid
  split_ifs at hvalid with hplace
  · rw [Bool.and_eq_true] at hplace
    have hnamed : (tab.assign ([("reference", none), ("sessionId", none)] ++ location.fields)).id =
        some "files" := (location_text (by decide)).trans hid
    have hkept : (tab.assign ([("reference", none), ("sessionId", none)] ++ location.fields)).text "kind" =
        some "files" := (location_text (by decide)).trans hkind
    exact {
      named := ⟨"files", hnamed, fun hpattern => absurd hpattern (by decide)⟩
      valid := location_valid hkept (by simp) (assign_optionalText hplace.1 htexts)
        (assign_optionalText hplace.2 htexts) (by unfold Tab.referenceValid; rw [hreference])
        (.inl (by decide))
      kind := kind_ne hkept (by decide)
      keys := assign_keys h.keys
      values := assign_values h.values (by
        intro f hf
        rcases List.mem_append.1 hf with hf | hf
        · simp only [List.mem_cons, List.not_mem_nil, or_false] at hf
          rcases hf with rfl | rfl <;> rintro _ ⟨⟩
        · exact location_values location f hf) }
  · exact absurd hvalid (by simp)

end Workspace

end LatteWork
