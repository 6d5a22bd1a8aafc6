import LatteWork.Proofs.WorkspaceTabs

/-!
# Workspaces over a restart

Whatever is opened, a process that starts afresh reads the workspaces as they were, as long as every
tab that was opened is one that `readWorkspace` recognises. The invariant says it of the states in
memory and of the texts in the storage at once; an operation keeps it because it only puts recognised
tabs into a good state.
-/

namespace LatteWork

namespace Workspace

variable {parse : String → Option Resources.Url} {uuids : List String}

/-! ### States that operations make -/

/-- The id that is shown is one of an open tab, whatever it was before. -/
theorem settle_good {next : WorkspaceState} (htabs : ∀ tab ∈ next.tabs, GoodTab parse uuids tab)
    (hnodup : (next.tabs.map Tab.id).Nodup) (hwidth : atLeast next.width = next.width)
    (hbrowsers : (next.tabs.filter isBrowser).length ≤ 32) : Good parse uuids (settle next) := by
  have hlast : ∀ tab, next.tabs.getLast? = some tab →
      tab ∈ next.tabs ∧ tab.id = some ((next.tabs.getLast?.bind Tab.id).getD "") := by
    intro tab hlast
    have hmem := List.mem_of_getLast? hlast
    obtain ⟨i, hi, -⟩ := (htabs tab hmem).named
    refine ⟨hmem, ?_⟩
    rw [hlast, Option.bind_some, hi]
    rfl
  have hshown : ∃ current, (next.tabs = [] → current = "") ∧
      (next.tabs ≠ [] → ∃ tab ∈ next.tabs, tab.id = some current) ∧
      (if next.tabs.any fun tab => tab.id = some next.current then next
        else { next with current := (next.tabs.getLast?.bind Tab.id).getD "" }) =
        { next with current := current } := by
    split_ifs with hany
    · refine ⟨next.current, fun hempty => ?_, fun _ => ?_, rfl⟩
      · rw [hempty] at hany
        exact absurd hany (by simp)
      · simpa using hany
    · refine ⟨_, fun hempty => ?_, fun hsome => ?_, rfl⟩
      · rw [hempty]
        rfl
      · exact ⟨_, hlast _ (List.getLast?_eq_some_getLast hsome)⟩
  obtain ⟨current, hempty, hsome, hnext⟩ := hshown
  have hcurrent : (∃ tab ∈ next.tabs, tab.id = some current) ∨ (next.tabs = [] ∧ current = "") := by
    by_cases h : next.tabs = []
    · exact .inr ⟨h, hempty h⟩
    · exact .inl (hsome h)
  unfold settle
  rw [hnext]
  dsimp only
  split_ifs with hexpanded
  · exact ⟨htabs, hnodup, hcurrent, fun _ _ => rfl, hwidth, hbrowsers⟩
  · refine ⟨htabs, hnodup, hcurrent, fun hexp hnone => ?_, hwidth, hbrowsers⟩
    dsimp only at hexp hnone
    rw [hexp, hnone] at hexpanded
    exact absurd rfl hexpanded

theorem GoodTab.mono {more : List String} {tab : Tab} (h : GoodTab parse uuids tab)
    (hsub : ∀ uuid ∈ uuids, uuid ∈ more) : GoodTab parse more tab where
  named := by
    obtain ⟨i, hid, hi⟩ := h.named
    exact ⟨i, hid, fun hpattern => hsub i (hi hpattern)⟩
  valid := h.valid
  kind := h.kind
  keys := h.keys
  values := h.values

theorem Good.mono {more : List String} {state : WorkspaceState} (h : Good parse uuids state)
    (hsub : ∀ uuid ∈ uuids, uuid ∈ more) : Good parse more state where
  tabs := fun tab htab => (h.tabs tab htab).mono hsub
  nodup := h.nodup
  current := h.current
  conversation := h.conversation
  width := h.width
  browsers := h.browsers

theorem hasTab_iff {state : WorkspaceState} {i : String} :
    hasTab state i = true ↔ some i ∈ state.tabs.map Tab.id := by
  simp [hasTab]

/-- A new tab behind the others, under an id that none of them has. -/
theorem append_good {next : WorkspaceState} {state : WorkspaceState} {tab : Tab} {i : String}
    (h : Good parse uuids state) (htab : GoodTab parse uuids tab) (hid : tab.id = some i)
    (hnew : some i ∉ state.tabs.map Tab.id)
    (hbrowsers : isBrowser tab = true → (state.tabs.filter isBrowser).length < 32)
    (htabs : next.tabs = state.tabs ++ [tab]) (hwidth : next.width = state.width) :
    Good parse uuids (settle next) := by
  refine settle_good (fun t ht => ?_) ?_ (hwidth ▸ h.width) ?_
  · rw [htabs] at ht
    rcases List.mem_append.1 ht with ht | ht
    · exact h.tabs t ht
    · exact List.mem_singleton.1 ht ▸ htab
  · rw [htabs, List.map_append, List.nodup_append]
    refine ⟨h.nodup, List.nodup_singleton _, ?_⟩
    rintro a ha b hb rfl
    rw [List.map_singleton, List.mem_singleton, hid] at hb
    exact hnew (hb ▸ ha)
  · have hold := h.browsers
    rw [htabs, List.filter_append, List.length_append]
    cases hb : isBrowser tab
    · simpa [hb] using hold
    · have hroom := hbrowsers hb
      have hone : ([tab].filter isBrowser).length = 1 := by simp [hb]
      omega

/-- Tabs that keep their ids, and of which none becomes one of the browser. -/
theorem map_good {next : WorkspaceState} {state : WorkspaceState} {f : Tab → Tab}
    (h : Good parse uuids state) (hgood : ∀ tab ∈ state.tabs, GoodTab parse uuids (f tab))
    (hid : ∀ tab ∈ state.tabs, (f tab).id = tab.id)
    (hbrowser : ∀ tab ∈ state.tabs, isBrowser (f tab) = true → isBrowser tab = true)
    (htabs : next.tabs = state.tabs.map f) (hwidth : next.width = state.width) :
    Good parse uuids (settle next) := by
  refine settle_good (fun t ht => ?_) ?_ (hwidth ▸ h.width) ?_
  · rw [htabs] at ht
    obtain ⟨tab, htab, rfl⟩ := List.mem_map.1 ht
    exact hgood tab htab
  · have hids : (state.tabs.map f).map Tab.id = state.tabs.map Tab.id := by
      rw [List.map_map]
      exact List.map_congr_left hid
    rw [htabs, hids]
    exact h.nodup
  · rw [htabs, ← List.countP_eq_length_filter, List.countP_map]
    have hle := List.countP_mono_left (p := isBrowser ∘ f) (q := isBrowser) (l := state.tabs) hbrowser
    rw [List.countP_eq_length_filter (p := isBrowser)] at hle
    exact hle.trans h.browsers

/-- A state whose tabs are those of a good one. -/
theorem same_good {next : WorkspaceState} {state : WorkspaceState} (h : Good parse uuids state)
    (htabs : next.tabs = state.tabs) (hwidth : next.width = state.width) :
    Good parse uuids (settle next) :=
  settle_good (htabs ▸ h.tabs) (htabs ▸ h.nodup) (hwidth ▸ h.width) (htabs ▸ h.browsers)

theorem openTab_good {state : WorkspaceState} {tab : Tab} {i : String} (h : Good parse uuids state)
    (htab : GoodTab parse uuids tab) (hid : tab.id = some i) (hkind : isBrowser tab = false) :
    Good parse uuids (settle (openTab i tab state)) := by
  cases hhas : hasTab state i
  · have hnew : some i ∉ state.tabs.map Tab.id := fun hmem => by simp [hasTab_iff.2 hmem] at hhas
    exact append_good h htab hid hnew (fun hb => by simp [hkind] at hb)
      (by simp [openTab, hhas]) rfl
  · exact same_good h (by simp [openTab, hhas]) rfl

theorem replaceTab_good {state : WorkspaceState} {tab : Tab} {i : String} {replace : Tab → Tab}
    (h : Good parse uuids state) (htab : GoodTab parse uuids tab) (hid : tab.id = some i)
    (hkind : isBrowser tab = false)
    (hreplace : ∀ t ∈ state.tabs, t.id = some i → GoodTab parse uuids (replace t) ∧
      (replace t).id = some i ∧ (isBrowser (replace t) = true → isBrowser t = true)) :
    Good parse uuids (settle (replaceTab i replace tab state)) := by
  cases hhas : hasTab state i
  · have hnew : some i ∉ state.tabs.map Tab.id := fun hmem => by simp [hasTab_iff.2 hmem] at hhas
    exact append_good h htab hid hnew (fun hb => by simp [hkind] at hb)
      (by simp [replaceTab, hhas]) rfl
  · refine map_good (f := fun t => if t.id = some i then replace t else t) h (fun t ht => ?_)
      (fun t ht => ?_) (fun t ht => ?_) (by simp [replaceTab, hhas]) rfl
    · split_ifs with hi
      · exact (hreplace t ht hi).1
      · exact h.tabs t ht
    · split_ifs with hi
      · exact (hreplace t ht hi).2.1.trans hi.symm
      · rfl
    · split_ifs with hi
      · exact (hreplace t ht hi).2.2
      · exact id

/-- A browser tab under a new id. -/
theorem browserUpdate_good {state next : WorkspaceState} {url uuid : String} {newTab : Bool}
    (h : Good parse uuids state) (hpattern : uuidPattern uuid.toList = true) (hfresh : uuid ∉ uuids)
    (hurl : (state.tabs.filter isBrowser).length < 32 →
      url = "" ∨ (Resources.webLink parse url).isSome = true)
    (hnext : browserUpdate parse url uuid newTab state = .ok next) :
    Good parse (uuids ++ [uuid]) (settle next) := by
  have hmore : ∀ u ∈ uuids, u ∈ uuids ++ [uuid] := fun u hu => List.mem_append_left _ hu
  unfold browserUpdate at hnext
  dsimp only at hnext
  split at hnext
  · obtain rfl := Except.ok.inj hnext
    exact same_good (h.mono hmore) rfl rfl
  · simp only [Fallible.bind_eq_ok, Fallible.bailIf_eq_ok, exists_const] at hnext
    obtain ⟨hroom, hnext⟩ := hnext
    obtain ⟨title, rfl⟩ : ∃ title, next = { state with
        tabs := state.tabs ++ [browserTab url uuid title]
        current := uuid
        visible := true
        conversationActive := false } := by
      split_ifs at hnext
      · obtain ⟨title, -, hnext⟩ := Fallible.bind_eq_ok.1 hnext
        exact ⟨title, (Except.ok.inj hnext).symm⟩
      · exact ⟨_, (Except.ok.inj hnext).symm⟩
    have hroom : (state.tabs.filter isBrowser).length < 32 := not_le.1 hroom
    have hnew : some uuid ∉ state.tabs.map Tab.id := by
      intro hmem
      obtain ⟨tab, htab, hid⟩ := List.mem_map.1 hmem
      obtain ⟨i, hi, hgiven⟩ := (h.tabs tab htab).named
      obtain rfl := Option.some.inj (hid.symm.trans hi)
      exact hfresh (hgiven hpattern)
    exact append_good (h.mono hmore)
      (browser_good (List.mem_append_right _ (List.mem_singleton_self uuid)) hpattern (hurl hroom)) rfl
      hnew (fun _ => hroom) rfl rfl

/-! ### Workspaces in memory and in the storage -/

/-- A key that no workspace of an earlier version has. -/
def Plain (key : String) : Prop := key.toList.head? ≠ some '['

/-- What is in memory is good and is what would be read again, and every text that is stored is that
of a good state. -/
structure Inv (parse : String → Option Resources.Url) (uuids : List String) (w : World) : Prop where
  cached : ∀ key state, w.cache.lookup key = some state →
    Good parse uuids state ∧ readState parse (w.storage.lookup (keyPrefix ++ key)) = state
  stored : ∀ entry ∈ w.storage, ∃ key state,
    entry = (keyPrefix ++ key, stringify state) ∧ Plain key ∧ Good parse uuids state

theorem Inv.mono {more : List String} {w : World} (h : Inv parse uuids w)
    (hsub : ∀ uuid ∈ uuids, uuid ∈ more) : Inv parse more w where
  cached := fun key state hkey => ⟨(h.cached key state hkey).1.mono hsub, (h.cached key state hkey).2⟩
  stored := by
    intro entry hentry
    obtain ⟨key, state, heq, hplain, hgood⟩ := h.stored entry hentry
    exact ⟨key, state, heq, hplain, hgood.mono hsub⟩

theorem isLegacy_plain {key old : String} (h : Plain old) : isLegacy key (keyPrefix ++ old) = false := by
  have hlegacy : (keyPrefix ++ "[").toList.isPrefixOf (keyPrefix ++ old).toList = false := by
    rw [String.toList_append, String.toList_append, Bool.eq_false_iff]
    intro hpre
    obtain ⟨rest, hrest⟩ := List.isPrefixOf_iff_prefix.1 hpre
    rw [List.append_assoc] at hrest
    have hold := List.append_cancel_left hrest
    exact h (by rw [← hold]; rfl)
  unfold isLegacy
  rw [hlegacy]
  rfl

theorem findLegacy_none {key : String} {stores : Bool} : ∀ {storage : List (String × String)},
    (∀ entry ∈ storage, isLegacy key entry.1 = false) → findLegacy key stores storage none = (none, false)
  | [], _ => rfl
  | (old, text) :: rest, h => by
    have hold : isLegacy key old = false := h _ List.mem_cons_self
    rw [findLegacy, hold]
    exact findLegacy_none fun entry hentry => h entry (List.mem_cons_of_mem _ hentry)

theorem readState_none : readState parse none = initial := rfl

/-- What the storage holds of a workspace is good. -/
theorem readState_good {w : World} (h : Inv parse uuids w) (key : String) :
    Good parse uuids (readState parse (w.storage.lookup (keyPrefix ++ key))) := by
  rcases hlook : w.storage.lookup (keyPrefix ++ key) with _ | text
  · exact initial_good
  · obtain ⟨k, state, heq, -, hgood⟩ := h.stored _ (Assoc.mem_of_lookup hlook)
    obtain ⟨-, rfl⟩ := Prod.mk.inj heq
    rw [readState_stringify hgood]
    exact hgood

theorem readWorkspace_spec {w : World} (h : Inv parse uuids w) (key : String) (stores : Bool) :
    Prog.wp (readWorkspace parse key stores) (fun state t => Inv parse uuids t ∧ t.storage = w.storage ∧
      state = readState parse (w.storage.lookup (keyPrefix ++ key))) (fun _ _ => False) w := by
  unfold readWorkspace
  rw [Prog.wp_bind, Prog.wp_current]
  rcases hcache : w.cache.lookup key with _ | state
  · have hnone : findLegacy key stores w.storage none = (none, false) :=
      findLegacy_none fun entry hentry => by
        obtain ⟨k, state, rfl, hplain, -⟩ := h.stored entry hentry
        exact isLegacy_plain hplain
    have hread : Inv parse uuids { storage := w.storage
                                   cache := TaskInfo.set w.cache key
                                    (readState parse (w.storage.lookup (keyPrefix ++ key))) } := by
      refine ⟨fun k state hk => ?_, h.stored⟩
      rw [TaskInfo.lookup_set] at hk
      split_ifs at hk with hkey
      · obtain rfl := Option.some.inj hk
        rw [hkey]
        exact ⟨readState_good h key, rfl⟩
      · exact h.cached k state hk
    rcases hlook : w.storage.lookup (keyPrefix ++ key) with _ | text
    · rw [hlook] at hread
      dsimp only
      rw [hnone]
      exact Prog.wp_bind.2 (Prog.wp_update.2 (Prog.wp_pure.2 ⟨hread, rfl, rfl⟩))
    · rw [hlook] at hread
      exact Prog.wp_bind.2 (Prog.wp_update.2 (Prog.wp_pure.2 ⟨hread, rfl, rfl⟩))
  · exact Prog.wp_pure.2 ⟨h, rfl, (h.cached key state hcache).2.symm⟩

/-- A good state that is put in memory and in the storage at once. -/
theorem Inv.put {w : World} {key : String} {state : WorkspaceState} (h : Inv parse uuids w)
    (hkey : Plain key) (hstate : Good parse uuids state) :
    Inv parse uuids { storage := TaskInfo.set w.storage (keyPrefix ++ key) (stringify state)
                      cache := TaskInfo.set w.cache key state } where
  cached := by
    intro k other hk
    rw [TaskInfo.lookup_set] at hk
    rw [TaskInfo.lookup_set]
    split_ifs at hk with heq
    · obtain rfl := Option.some.inj hk
      rw [if_pos (congrArg (keyPrefix ++ ·) heq)]
      exact ⟨hstate, readState_stringify hstate⟩
    · have hne : keyPrefix ++ k ≠ keyPrefix ++ key := fun he => heq (by simpa using he)
      rw [if_neg hne]
      exact h.cached k other hk
  stored := by
    intro entry hentry
    rcases TaskInfo.mem_set hentry with rfl | hentry
    · exact ⟨key, state, rfl, hkey, hstate⟩
    · exact h.stored entry hentry

theorem updateWorkspace_spec {w : World} {more : List String} {key : String}
    {update : WorkspaceState → Except String WorkspaceState} (h : Inv parse uuids w) (hkey : Plain key)
    (hmore : ∀ uuid ∈ uuids, uuid ∈ more)
    (hupdate : ∀ next, update (readState parse (w.storage.lookup (keyPrefix ++ key))) = .ok next →
      Good parse more (settle next)) :
    Prog.wp (updateWorkspace parse key true update) (fun _ t => Inv parse more t)
      (fun _ t => Inv parse more t) w := by
  unfold updateWorkspace
  refine Prog.wp_bind.2 (Prog.wp_mono (readWorkspace_spec h key true) ?_ (fun _ _ hf => hf.elim))
  rintro state t ⟨ht, -, rfl⟩
  refine Prog.wp_bind.2 (Prog.wp_lift.2 ⟨fun next hnext => ?_, fun _ _ => ht.mono hmore⟩)
  exact (ht.mono hmore).put hkey (hupdate next hnext)

/-! ### Runs -/

/-- The id that an operation gives to a new tab of the browser. -/
def Op.uuid? : Op → Option String
  | .openBrowser _ _ uuid _ _ => some uuid
  | _ => none

/-- The workspaces that an operation is about. -/
def Op.keys : Op → List String
  | .openSubagents key _ | .openSubagent key _ _ | .openWorkspaceResource key _ _ _
  | .openTurnChanges key _ _ _ _ _ | .openBrowser key _ _ _ _ | .openTaskInfo key _
  | .openArtifact key _ _ _ _ | .read key _ => [key]
  | .copyWorkspace source target _ => [source, target]
  | .restart => []

/-- Whether the storage takes what an operation stores. -/
def Op.stores : Op → Bool
  | .openSubagents _ stores | .openSubagent _ _ stores | .openWorkspaceResource _ _ _ stores
  | .openTurnChanges _ _ _ _ _ stores | .openBrowser _ _ _ _ stores | .openTaskInfo _ stores
  | .openArtifact _ _ _ _ stores | .copyWorkspace _ _ stores | .read _ stores => stores
  | .restart => true

/-- What the callers and the browser promise: an address is read again from what it prints, a workspace
is named by the id of a conversation or of a draft, the storage works, and new ids are those of
`randomUUID`. -/
structure Promised (parse : String → Option Resources.Url) (ops : List Op) : Prop where
  address : ∀ value url, parse value = some url → parse url.href = some url
  keys : ∀ op ∈ ops, ∀ key ∈ op.keys, Plain key
  stores : ∀ op ∈ ops, op.stores = true
  uuids : ∀ uuid ∈ ops.filterMap Op.uuid?, uuidPattern uuid.toList = true
  distinct : (ops.filterMap Op.uuid?).Nodup

/-- The state that `readWorkspace` gives. -/
def stateOf (parse : String → Option Resources.Url) (w : World) (key : String) : WorkspaceState :=
  match ((readWorkspace parse key true).run w).1 with
  | .ok state => state
  | .error _ => initial

/-- When what an operation opens is a tab that `readWorkspace` recognises. An address counts only
where there is room for a tab. -/
def Recognised (parse : String → Option Resources.Url) (w : World) : Op → Prop
  | .openSubagent _ task _ => task.id ≠ ""
  | .openTurnChanges _ sessionId requestId _ _ _ =>
    requestId ≠ "" ∧ utf16Length requestId ≤ 256 ∧ sessionId ≠ ""
  | .openBrowser key value _ _ _ => value ≠ "" → ∀ url, Resources.webLink parse value = some url →
    ((stateOf parse w key).tabs.filter isBrowser).length < 32 → utf16Length url ≤ 8192
  | .openArtifact _ entry owner _ _ => entry.directory = true → hostPath owner.project entry.path ≠ ""
  | _ => True

theorem stateOf_eq {w : World} (h : Inv parse uuids w) (key : String) :
    stateOf parse w key = readState parse (w.storage.lookup (keyPrefix ++ key)) := by
  have hspec := readWorkspace_spec h key true
  unfold Prog.wp at hspec
  unfold stateOf Prog.run
  revert hspec
  rcases readWorkspace parse key true w with ⟨_ | state, t⟩ <;> intro hspec
  · exact hspec.elim
  · exact hspec.2.2

theorem isBrowser_kind {tab : Tab} {k : String} (h : tab.text "kind" = some k) (hk : k ≠ "browser") :
    isBrowser tab = false := by
  simp [isBrowser, h, hk]

theorem resource_update {state : WorkspaceState} (h : Good parse uuids state) (kind : ResourceKind)
    (location : Location) :
    Good parse uuids (settle (replaceTab kind.name (fun t =>
      if kind = .diff then resourceTab kind location
      else if t.text "kind" ≠ some "files" then t
      else t.assign ([("reference", none), ("sessionId", none)] ++ location.fields))
        (resourceTab kind location) state)) := by
  have hkind : isBrowser (resourceTab kind location) = false :=
    isBrowser_kind (k := kind.name) rfl (by cases kind <;> decide)
  refine replaceTab_good h (resource_good kind location) rfl hkind fun t ht hid => ?_
  split_ifs with hdiff hfiles
  · exact ⟨resource_good kind location, rfl, fun hb => by simp [hkind] at hb⟩
  · exact ⟨h.tabs t ht, hid, id⟩
  · have hname : kind.name = "files" := by cases kind <;> first | rfl | exact absurd rfl hdiff
    rw [hname] at hid ⊢
    have hkept := not_not.1 hfiles
    refine ⟨assign_good (h.tabs t ht) hid hkept, (location_text (by decide)).trans hid, ?_⟩
    unfold isBrowser
    rw [location_text (by decide)]
    exact fun hb => hb

/-- One operation keeps the invariant. -/
theorem step_inv {w : World} {op : Op} (h : Inv parse uuids w) (hkeys : ∀ key ∈ op.keys, Plain key)
    (hstores : op.stores = true) (huuid : ∀ uuid ∈ op.uuid?, uuidPattern uuid.toList = true ∧ uuid ∉ uuids)
    (haddress : ∀ value url, parse value = some url → parse url.href = some url)
    (hop : Recognised parse w op) : Inv parse (uuids ++ op.uuid?.toList) (step parse w op) := by
  have hsame : ∀ uuid ∈ uuids, uuid ∈ uuids ++ op.uuid?.toList := fun u hu => List.mem_append_left _ hu
  have hgood : ∀ key, Good parse (uuids ++ op.uuid?.toList)
      (readState parse (w.storage.lookup (keyPrefix ++ key))) := fun key => (readState_good h key).mono hsame
  cases op with
  | openSubagents key stores =>
    obtain rfl : stores = true := hstores
    refine Prog.state_of_wp (updateWorkspace_spec h (hkeys key List.mem_cons_self) hsame ?_)
    rintro _ ⟨⟩
    exact openTab_good (hgood key) subagents_good rfl rfl
  | openSubagent key task stores =>
    obtain rfl : stores = true := hstores
    refine Prog.state_of_wp (updateWorkspace_spec h (hkeys key List.mem_cons_self) hsame ?_)
    rintro _ ⟨⟩
    exact openTab_good (hgood key) (subagent_good hop) rfl (isBrowser_kind rfl (by decide))
  | openWorkspaceResource key kind location stores =>
    obtain rfl : stores = true := hstores
    refine Prog.state_of_wp (updateWorkspace_spec h (hkeys key List.mem_cons_self) hsame ?_)
    rintro _ ⟨⟩
    exact resource_update (hgood key) kind location
  | openTurnChanges key sessionId requestId time file stores =>
    obtain rfl : stores = true := hstores
    have hturn : ∀ {more : List String}, GoodTab parse more (turnTab sessionId requestId time file) :=
      turn_good hop.1 hop.2.1 hop.2.2
    have hkind : isBrowser (turnTab sessionId requestId time file) = false :=
      isBrowser_kind (k := "diff") rfl (by decide)
    refine Prog.state_of_wp (updateWorkspace_spec h (hkeys key List.mem_cons_self) hsame ?_)
    rintro _ ⟨⟩
    exact replaceTab_good (hgood key) hturn rfl hkind fun t _ _ =>
      ⟨hturn, rfl, fun hb => by simp [hkind] at hb⟩
  | openBrowser key value uuid newTab stores =>
    obtain rfl : stores = true := hstores
    obtain ⟨hpattern, hfresh⟩ := huuid uuid rfl
    have hadd : ∀ url, (((readState parse (w.storage.lookup (keyPrefix ++ key))).tabs.filter
        isBrowser).length < 32 → url = "" ∨ (Resources.webLink parse url).isSome = true) →
        Inv parse (uuids ++ [uuid])
          ((updateWorkspace parse key true (browserUpdate parse url uuid newTab)).run w).2 :=
      fun url hurl => Prog.state_of_wp (updateWorkspace_spec h (hkeys key List.mem_cons_self) hsame
        fun next hnext => browserUpdate_good (readState_good h key) hpattern hfresh hurl hnext)
    show Inv parse (uuids ++ [uuid]) ((openBrowser parse key value uuid newTab true).run w).2
    unfold openBrowser
    by_cases hvalue : value = ""
    · rw [if_neg (not_not.2 hvalue)]
      exact hadd "" fun _ => .inl rfl
    · rw [if_pos hvalue]
      rcases hlink : Resources.webLink parse value with _ | url
      · exact h.mono hsame
      · refine hadd url fun hroom => .inr ?_
        have hlen := hop hvalue url hlink (by rwa [stateOf_eq h key])
        rw [webLink_again haddress hlink, if_neg (not_lt.2 hlen)]
        rfl
  | openTaskInfo key stores =>
    obtain rfl : stores = true := hstores
    refine Prog.state_of_wp (updateWorkspace_spec h (hkeys key List.mem_cons_self) hsame ?_)
    rintro _ ⟨⟩
    by_cases hhas : hasTab (readState parse (w.storage.lookup (keyPrefix ++ key))) "taskInfo" = true
    · exact same_good (hgood key) (by simp [openTab, hhas]) rfl
    · exact append_good (hgood key) taskInfo_good rfl (fun hmem => hhas (hasTab_iff.2 hmem))
        (fun hb => absurd hb (by decide))
        (by simp [openTab, hhas]) rfl
  | openArtifact key entry owner selectedFile stores =>
    obtain rfl : stores = true := hstores
    have htab : ∀ {more : List String}, GoodTab parse more (artifactTab entry owner selectedFile) :=
      artifact_good hop
    have hkind : isBrowser (artifactTab entry owner selectedFile) = false :=
      isBrowser_kind artifact_kind (by decide)
    refine Prog.state_of_wp (updateWorkspace_spec h (hkeys key List.mem_cons_self) hsame ?_)
    rintro _ ⟨⟩
    exact replaceTab_good (hgood key) htab artifact_id hkind fun t _ _ =>
      ⟨htab, artifact_id, fun hb => by simp [hkind] at hb⟩
  | copyWorkspace source target stores =>
    obtain rfl : stores = true := hstores
    refine Prog.state_of_wp (Prog.wp_bind.2 (Prog.wp_mono (readWorkspace_spec h source true) ?_
      fun _ _ hf => hf.elim))
    rintro state t ⟨ht, -, rfl⟩
    refine updateWorkspace_spec ht (hkeys target (by simp [Op.keys])) hsame ?_
    rintro _ ⟨⟩
    exact same_good (hgood source) rfl rfl
  | read key stores =>
    obtain rfl : stores = true := hstores
    exact Prog.state_of_wp (Prog.wp_mono (readWorkspace_spec h key true)
      (fun _ t ht => ht.1.mono hsame) fun _ _ hf => hf.elim)
  | restart =>
    exact ⟨fun key state hk => (by cases hk), fun entry hentry => (h.mono hsame).stored entry hentry⟩

theorem run_inv : ∀ {ops : List Op} {uuids : List String} {w : World}, Inv parse uuids w →
    (∀ value url, parse value = some url → parse url.href = some url) →
    (∀ op ∈ ops, ∀ key ∈ op.keys, Plain key) → (∀ op ∈ ops, op.stores = true) →
    (∀ uuid ∈ ops.filterMap Op.uuid?, uuidPattern uuid.toList = true) →
    (uuids ++ ops.filterMap Op.uuid?).Nodup → Runs.Throughout (step parse) (Recognised parse) w ops →
    Inv parse (uuids ++ ops.filterMap Op.uuid?) (Runs.run (step parse) w ops)
  | [], _, _, h, _, _, _, _, _, _ => by simpa using h
  | op :: ops, uuids, w, h, haddress, hkeys, hstores, hpattern, hdistinct, hops => by
    have hcons : (op :: ops).filterMap Op.uuid? = op.uuid?.toList ++ ops.filterMap Op.uuid? := by
      rw [List.filterMap_cons]
      cases op.uuid? <;> rfl
    rw [hcons] at hpattern hdistinct ⊢
    have hnew : ∀ uuid ∈ op.uuid?, uuidPattern uuid.toList = true ∧ uuid ∉ uuids := by
      intro uuid huuid
      have hmem := List.mem_append_left (ops.filterMap Op.uuid?) (Option.mem_toList.2 huuid)
      exact ⟨hpattern uuid hmem,
        fun hold => (List.nodup_append.1 hdistinct).2.2 uuid hold uuid hmem rfl⟩
    have hstep := step_inv h (hkeys op List.mem_cons_self) (hstores op List.mem_cons_self) hnew haddress
      hops.1
    rw [← List.append_assoc] at hdistinct ⊢
    exact run_inv hstep haddress (fun o ho => hkeys o (List.mem_cons_of_mem _ ho))
      (fun o ho => hstores o (List.mem_cons_of_mem _ ho))
      (fun uuid huuid => hpattern uuid (List.mem_append_right _ huuid)) hdistinct hops.2

/-- What is promised of a workspace: its tabs have ids that are unique, one of them is shown where
there is one, and a process that starts with the storage as it is reads the same state. -/
structure Survives (parse : String → Option Resources.Url) (w : World) (key : String) : Prop where
  named : ∀ tab ∈ (stateOf parse w key).tabs, tab.id.isSome = true
  unique : ((stateOf parse w key).tabs.map Tab.id).Nodup
  current : (stateOf parse w key).tabs ≠ [] →
    hasTab (stateOf parse w key) (stateOf parse w key).current = true
  browsers : ((stateOf parse w key).tabs.filter isBrowser).length ≤ 32
  restarted : stateOf parse { storage := w.storage } key = stateOf parse w key
  links : ∀ tab ∈ (stateOf parse w key).tabs, isBrowser tab = true → ∃ url, tab.text "url" = some url ∧
    (url = "" ∨ (Resources.webLink parse url).isSome = true)

/-- A browser tab that is recognised has an address that is accepted. -/
theorem GoodTab.link {tab : Tab} (h : GoodTab parse uuids tab) (hbrowser : isBrowser tab = true) :
    ∃ url, tab.text "url" = some url ∧ (url = "" ∨ (Resources.webLink parse url).isSome = true) := by
  have hkind : tab.text "kind" = some "browser" := by simpa [isBrowser] using hbrowser
  have hvalid := h.valid
  unfold Tab.valid at hvalid
  rw [hkind] at hvalid
  have hlink := (Bool.and_eq_true_iff.1 (Option.some.inj hvalid)).2
  rcases hurl : tab.text "url" with _ | url
  · rw [hurl] at hlink
    exact absurd hlink (by simp)
  · rw [hurl] at hlink
    exact ⟨url, rfl, by simpa using hlink⟩

theorem Inv.survives {w : World} (h : Inv parse uuids w) (key : String) : Survives parse w key := by
  have hfresh : Inv parse uuids { storage := w.storage } :=
    ⟨fun k state hk => (by cases hk), h.stored⟩
  have heq := stateOf_eq h key
  have hgood : Good parse uuids (stateOf parse w key) := heq ▸ readState_good h key
  refine ⟨fun tab htab => ?_, hgood.nodup, fun htabs => ?_, hgood.browsers, ?_,
    fun tab htab => (hgood.tabs tab htab).link⟩
  · obtain ⟨i, hid, -⟩ := (hgood.tabs tab htab).named
    rw [hid]
    rfl
  · obtain ⟨tab, htab, hid⟩ := hgood.current.resolve_right fun hnone => htabs hnone.1
    exact hasTab_iff.2 (hid ▸ List.mem_map_of_mem htab)
  · rw [heq, stateOf_eq hfresh key]

/-- Tabs survive a restart in every run that opens what is recognised, and an address that was
accepted is accepted again where what it became is short enough. -/
theorem tabs_survive (parse : String → Option Resources.Url) (ops : List Op)
    (h : Promised parse ops) :
    (∀ value url, Resources.webLink parse value = some url →
      (Resources.webLink parse url = some url ↔ utf16Length url ≤ 8192)) ∧
    (Runs.Throughout (step parse) (Recognised parse) {} ops → ∀ key, Survives parse (run parse ops) key) := by
  constructor
  · intro value url hlink
    rw [webLink_again h.address hlink]
    split_ifs with hlen
    · simp [hlen]
    · simp [not_lt.1 hlen]
  · intro hops key
    have hstart : Inv parse [] {} := ⟨fun k state hk => (by cases hk), fun entry hentry => by cases hentry⟩
    exact (run_inv hstart h.address h.keys h.stores h.uuids h.distinct hops).survives key

/-- An address parser that knows one place, under what is typed and under what it prints. -/
def onePlace (value href : String) (s : String) : Option Resources.Url :=
  if s = value ∨ s = href then
    some { protocol := "https:", username := "", password := "", hostname := "a.test", href }
  else none

theorem onePlace_again {value href : String} : ∀ s url, onePlace value href s = some url →
    onePlace value href url.href = some url := by
  intro s url h
  unfold onePlace at h
  split_ifs at h
  obtain rfl := Option.some.inj h
  exact if_pos (.inr rfl)

theorem tabs_survive_opened :
    let parse := onePlace "https://a.test" "https://a.test/"
    let ops : List Op := [.openTaskInfo "c1" true, .restart,
      .openBrowser "c1" "https://a.test" "0f8fad5b-d9cb-469f-a165-70867728950e" false true,
      .openSubagent "c1" { id := "s1", title := "Review" } true, .copyWorkspace "c1" "c2" true]
    Survives parse (run parse ops) "c2" := by
  intro parse ops
  have hpromised : Promised parse ops :=
    ⟨onePlace_again, by simp [ops, Op.keys, Plain], by simp [ops, Op.stores],
      by simp only [ops, List.filterMap, Op.uuid?]; decide, by simp [ops, List.filterMap, Op.uuid?]⟩
  refine (tabs_survive parse ops hpromised).2 ⟨trivial, trivial, ?_, by simp [Recognised], trivial, trivial⟩ "c2"
  intro _ url hlink _
  have hopened : Resources.webLink parse "https://a.test" = some "https://a.test/" := by decide
  obtain rfl := Option.some.inj (hopened.symm.trans hlink)
  decide

section long

variable {value href uuid : String}

/-- What is stored of one tab of the browser whose address is too long. -/
theorem long_dropped (hlong : 8192 < utf16Length href) (hnamed : href ≠ "") :
    (readState parse (some (stringify { initial with
      tabs := [browserTab href uuid "a.test"], current := uuid, visible := true }))).tabs = [] := by
  have hvalid : (browserTab href uuid "a.test").valid parse = some false := by
    have hlink : Resources.webLink parse href = none := if_pos hlong
    show some (uuidPattern uuid.toList && true &&
      (decide (href = "") || (Resources.webLink parse href).isSome)) = some false
    rw [hlink, decide_eq_false hnamed]
    simp
  have hkeep : keepTabs parse [] [.obj (browserTab href uuid "a.test").fields] = some [] := by
    have htab : (⟨(browserTab href uuid "a.test").fields⟩ : Tab) = browserTab href uuid "a.test" := rfl
    have hid : (browserTab href uuid "a.test").id = some uuid := rfl
    rw [keepTabs, htab, hid]
    simp only [List.not_mem_nil, if_false, hvalid, keepTabs]
  have hparse := @parse_stringify { initial with
      tabs := [browserTab href uuid "a.test"], current := uuid, visible := true }
    (fun tab htab => by
      obtain rfl := List.mem_singleton.1 htab
      exact ⟨object_keys (by simp), by simp [browserTab, Tab.object, Json.Textual]⟩)
  generalize hsaved : Json.obj _ = saved at hparse
  have htabs : saved.get? "tabs" = some (.arr [.obj (browserTab href uuid "a.test").fields]) :=
    hsaved ▸ rfl
  unfold readState
  rw [Option.getD_some, hparse]
  simp only [htabs, hkeep]
  rfl

theorem onePlace_link (hvalue : utf16Length value ≤ 8192) :
    Resources.webLink (onePlace value href) value = some href := by
  unfold Resources.webLink onePlace
  rw [if_neg (not_lt.2 hvalue), if_pos (.inl rfl)]
  exact if_pos (by simp)

/-- The state that opening it leaves, in a new workspace. -/
theorem long_run (hvalue : utf16Length value ≤ 8192) (hne : value ≠ "") (hnamed : href ≠ "") :
    run (onePlace value href) [.openBrowser "c1" value uuid false true] =
      { storage := [(keyPrefix ++ "c1", stringify { initial with
          tabs := [browserTab href uuid "a.test"], current := uuid, visible := true })]
        cache := [("c1", { initial with
          tabs := [browserTab href uuid "a.test"], current := uuid, visible := true })] } := by
  have hlink := @onePlace_link value href hvalue
  show ((openBrowser (onePlace value href) "c1" value uuid false true).run {}).2 = _
  unfold openBrowser
  rw [if_pos hne, hlink]
  have hupdate : browserUpdate (onePlace value href) href uuid false initial = .ok { initial with
      tabs := [browserTab href uuid "a.test"], current := uuid, visible := true } := by
    simp [browserUpdate, onePlace, initial, Fallible.bailIf, Fallible.orError, hnamed, bind, Except.bind]
  have hread : (readWorkspace (onePlace value href) "c1" true) {} =
      (.ok initial, { cache := [("c1", initial)] }) := rfl
  refine Prog.state_of_wp (P := fun t => t = _) (Prog.wp_bind.2 ?_)
  unfold Prog.wp
  rw [hread]
  refine Prog.wp_bind.2 (Prog.wp_lift.2 ⟨fun next hnext => ?_, fun e he => ?_⟩)
  · rw [hupdate] at hnext
    have hsettle : settle next = next := by
      obtain rfl := Except.ok.inj hnext
      have hid : (browserTab href uuid "a.test").id = some uuid := rfl
      simp [settle, hid, initial]
    dsimp only
    rw [hsettle, Prog.wp_update]
    obtain rfl := Except.ok.inj hnext
    rfl
  · rw [hupdate] at he
    cases he

/-- An address that is accepted and is too long as it is written out is lost. -/
theorem long_lost (hvalue : utf16Length value ≤ 8192) (hne : value ≠ "")
    (hlong : 8192 < utf16Length href) :
    Resources.webLink (onePlace value href) value = some href ∧
      Resources.webLink (onePlace value href) href = none ∧
      ¬Survives (onePlace value href)
        (run (onePlace value href) [.openBrowser "c1" value uuid false true]) "c1" := by
  have hnamed : href ≠ "" := by
    rintro rfl
    exact absurd hlong (by decide)
  refine ⟨onePlace_link hvalue, if_pos hlong, fun h => ?_⟩
  have htabs := congrArg WorkspaceState.tabs h.restarted
  rw [long_run hvalue hne hnamed] at htabs
  have hfresh := @long_dropped (onePlace value href) href uuid hlong hnamed
  have hshown : [browserTab href uuid "a.test"] = [] := htabs.symm.trans hfresh
  cases hshown

end long

theorem utf16Length_append (s t : String) : utf16Length (s ++ t) = utf16Length s + utf16Length t := by
  simp [utf16Length]

/-- A path of a thousand characters. -/
def typed : String := "https://a.test/" ++ String.ofList (List.replicate 1000 '中')

/-- What `href` makes of it. -/
def escaped : String := "https://a.test/" ++ String.ofList (List.replicate 1000 "%E4%B8%AD".toList).flatten

theorem typed_length : utf16Length typed = 1015 := by
  unfold typed
  rw [utf16Length_append]
  have hpath : utf16Length (String.ofList (List.replicate 1000 '中')) = 1000 := by
    unfold utf16Length
    rw [String.toList_ofList, List.map_replicate, List.sum_replicate_nat]
    rfl
  rw [hpath]
  rfl

theorem escaped_length : utf16Length escaped = 9015 := by
  unfold escaped
  rw [utf16Length_append]
  have hpath : utf16Length (String.ofList (List.replicate 1000 "%E4%B8%AD".toList).flatten) = 9000 := by
    unfold utf16Length
    rw [String.toList_ofList, List.map_flatten, List.map_replicate, List.sum_flatten, List.map_replicate,
      List.sum_replicate_nat]
    rfl
  rw [hpath]
  rfl

/-- The promises are kept, and the tab is gone behind a restart. -/
theorem tabs_not_survive_escaped :
    Promised (onePlace typed escaped)
      [.openBrowser "c1" typed "0f8fad5b-d9cb-469f-a165-70867728950e" false true] ∧
    Resources.webLink (onePlace typed escaped) typed = some escaped ∧
    Resources.webLink (onePlace typed escaped) escaped = none ∧
    ¬Survives (onePlace typed escaped) (run (onePlace typed escaped)
      [.openBrowser "c1" typed "0f8fad5b-d9cb-469f-a165-70867728950e" false true]) "c1" := by
  refine ⟨⟨onePlace_again, by simp [Op.keys, Plain], by simp [Op.stores],
    by simp only [List.filterMap, Op.uuid?]; decide, by simp [List.filterMap, Op.uuid?]⟩, ?_⟩
  have htyped := typed_length
  have hescaped := escaped_length
  refine long_lost (by omega) ?_ (by omega)
  intro hempty
  rw [hempty] at htyped
  exact absurd htyped (by decide)

end Workspace

end LatteWork
