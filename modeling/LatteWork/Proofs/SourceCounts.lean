import LatteWork.Lib.FirstSeen
import LatteWork.Store.Sources

/-!
# A tool use counts once

An event can be indexed when it is logged and each time the sources are listed. The table of
observed tools has every tool use that was counted, so the uses of a source are the tool uses first
seen with a name of its own, however often they were indexed (`sources_count_once`).
-/

namespace LatteWork

open Fallible Table

/-- A tool use that an event shows, when it can be told from others. -/
def EventKind.toolUse : EventKind → Option (String × String)
  | .tool id name _ => if id = "" ∨ 512 < id.utf8ByteSize then none else some (id, name)
  | _ => none

/-- The tool uses of a session among what was indexed. -/
def toolUses (log : List (String × EventKind)) (session : String) : List (String × String) :=
  (log.filter (·.1 = session)).filterMap (·.2.toolUse)

/-- The tool uses that count for a source. -/
def usesFor (log : List (String × EventKind)) (session src : String) : ℕ :=
  FirstSeen.count (fun name => (toolSource name).map (·.id) = some src) (toolUses log session)

/-- `u32::MAX`. -/
def maxUses : ℕ := 2 ^ 32 - 1

namespace SourceTables

variable {parse : String → Option Json} {t : SourceTables} {session src : String}
  {source : TaskSource} {now : ℕ} {log : List (String × EventKind)}

/-- The row of a source. -/
def rowOf (t : SourceTables) (session src : String) : Option SourceRow :=
  t.taskSources.find? (SourceRow.names session src)

/-- The uses of a source, none when it is not in the table. -/
def usesOf (t : SourceTables) (session src : String) : ℕ :=
  ((t.rowOf session src).map (·.source.uses)).getD 0

/-- What every row keeps: its source is named once in its session, its uses are a `u32`, and its
tools are a bounded set. -/
structure Wf (t : SourceTables) : Prop where
  keys : (t.taskSources.map fun r => (r.sessionId, r.source.id)).Nodup
  uses : ∀ r ∈ t.taskSources, r.source.uses ≤ maxUses
  tools : ∀ r ∈ t.taskSources, r.source.tools.Nodup ∧ r.source.tools.length ≤ 64
  reference : ∀ r ∈ t.taskSources, r.source.kind.ofReference = true →
    "file:".toList.isPrefixOf r.source.id.toList = true

/-- What the sources that are indexed are like. -/
structure Fresh (source : TaskSource) : Prop where
  uses : source.uses ≤ 1
  tools : source.tools.Nodup ∧ source.tools.length ≤ 1
  reference : source.kind.ofReference = true → "file:".toList.isPrefixOf source.id.toList = true

theorem names_iff {session id : String} {row : SourceRow} :
    SourceRow.names session id row = true ↔ (row.sessionId, row.source.id) = (session, id) := by
  simp [SourceRow.names]

theorem addTools {more : List String} : ∀ {tools : List String},
    tools.Nodup ∧ tools.length ≤ 64 →
      (more.foldl addTool tools).Nodup ∧ (more.foldl addTool tools).length ≤ 64 := by
  induction more with
  | nil => exact fun h => h
  | cons tool more ih =>
    intro tools h
    refine ih ?_
    unfold addTool
    split
    · rename_i hnew
      refine ⟨List.nodup_append.2 ⟨h.1, by simp, fun a ha b hb heq => ?_⟩, ?_⟩
      · rw [List.mem_singleton] at hb
        exact hnew.1 (hb ▸ heq ▸ ha)
      · rw [List.length_append, List.length_singleton]
        omega
    · exact h

theorem mem_of_rowOf {row : SourceRow} (h : t.rowOf session src = some row) :
    row ∈ t.taskSources ∧ row.sessionId = session ∧ row.source.id = src := by
  have hnames := List.find?_some h
  rw [names_iff, Prod.mk.injEq] at hnames
  exact ⟨List.mem_of_find?_eq_some h, hnames⟩

theorem not_mem_of_rowOf (h : t.rowOf session src = none) :
    (session, src) ∉ t.taskSources.map fun r => (r.sessionId, r.source.id) := by
  intro hmem
  obtain ⟨row, hrow, hkey⟩ := List.mem_map.1 hmem
  exact List.find?_eq_none.1 h row hrow (names_iff.2 hkey)

/-- What indexing a source does: it is merged into its row, or added, or the session has too many. -/
theorem indexSource_cases (t : SourceTables) (session : String) (source : TaskSource) (now : ℕ) :
    (∃ row, t.rowOf session source.id = some row ∧
      t.indexSource session source now = { t with
        taskSources := updateWhere (SourceRow.names session source.id)
          (fun r => { r with source := row.source.merge source, atMs := now }) t.taskSources }) ∨
    (t.rowOf session source.id = none ∧ 512 ≤ (t.rows session).length ∧
      t.indexSource session source now = t) ∨
    (t.rowOf session source.id = none ∧ (t.rows session).length < 512 ∧
      t.indexSource session source now =
        { t with taskSources := t.taskSources ++ [{ sessionId := session, source, atMs := now }] }) := by
  unfold indexSource rowOf
  rcases t.taskSources.find? (SourceRow.names session source.id) with _ | row
  · by_cases hfull : 512 ≤ (t.rows session).length
    · exact .inr (.inl ⟨rfl, hfull, if_pos hfull⟩)
    · exact .inr (.inr ⟨rfl, Nat.lt_of_not_le hfull, if_neg hfull⟩)
  · exact .inl ⟨row, rfl, rfl⟩

theorem mem_indexSource {row : SourceRow}
    (h : row ∈ (t.indexSource session source now).taskSources) :
    row ∈ t.taskSources ∨ (row.sessionId, row.source.id) = (session, source.id) := by
  obtain ⟨old, -, heq⟩ | ⟨-, -, heq⟩ | ⟨-, -, heq⟩ :=
    t.indexSource_cases session source now <;> rw [heq] at h
  · obtain ⟨q, hq, rfl⟩ := mem_updateWhere.1 h
    split
    · rename_i hnames
      rw [names_iff, Prod.mk.injEq] at hnames
      exact .inr (Prod.ext hnames.1 rfl)
    · exact .inl hq
  · exact .inl h
  · rcases List.mem_append.1 h with h | h
    · exact .inl h
    · obtain rfl := List.mem_singleton.1 h
      exact .inr rfl

theorem observedTools_indexSource :
    (t.indexSource session source now).observedTools = t.observedTools := by
  obtain ⟨row, -, h⟩ | ⟨-, -, h⟩ | ⟨-, -, h⟩ := t.indexSource_cases session source now <;> rw [h]

/-- The sources of a session only grow in number. -/
theorem rows_indexSource (t : SourceTables) (session other : String) (source : TaskSource)
    (now : ℕ) : (t.rows other).length ≤ ((t.indexSource session source now).rows other).length := by
  obtain ⟨row, -, h⟩ | ⟨-, -, h⟩ | ⟨-, -, h⟩ := t.indexSource_cases session source now <;> rw [h]
  · have hrows := filter_updateWhere (p := SourceRow.names session source.id)
      (q := fun r => decide (r.sessionId = other))
      (f := fun r => { r with source := row.source.merge source, atMs := now }) (fun r _ => rfl)
      t.taskSources
    rw [rows, rows, hrows, updateWhere, List.length_map]
  · rw [rows, rows, List.filter_append, List.length_append]
    omega

theorem Wf.indexSource (h : t.Wf) (hs : Fresh source) : (t.indexSource session source now).Wf := by
  obtain ⟨row, hrow, heq⟩ | ⟨-, -, heq⟩ | ⟨hrow, -, heq⟩ :=
    t.indexSource_cases session source now <;> rw [heq]
  · have hkeys := map_updateWhere (p := SourceRow.names session source.id)
      (f := fun r => { r with source := row.source.merge source, atMs := now })
      (g := fun r => (r.sessionId, r.source.id)) (fun r hr => by
        rw [names_iff, Prod.mk.injEq] at hr
        exact Prod.ext rfl hr.2.symm) t.taskSources
    refine ⟨by rw [hkeys]; exact h.keys, fun r hr => ?_, fun r hr => ?_, fun r hr => ?_⟩ <;>
      obtain ⟨q, hq, rfl⟩ := mem_updateWhere.1 hr
    · split
      · exact Nat.min_le_right _ _
      · exact h.uses q hq
    · split
      · exact addTools ⟨hs.tools.1, by have := hs.tools.2; omega⟩
      · exact h.tools q hq
    · split
      · exact hs.reference
      · exact h.reference q hq
  · exact h
  · refine ⟨?_, ?_, ?_, ?_⟩
    · rw [List.map_append, List.nodup_append]
      refine ⟨h.keys, by simp, fun a ha b hb heq => ?_⟩
      rw [List.map_singleton, List.mem_singleton] at hb
      exact not_mem_of_rowOf hrow (hb ▸ heq ▸ ha)
    · intro r hr
      rcases List.mem_append.1 hr with hr | hr
      · exact h.uses r hr
      · obtain rfl := List.mem_singleton.1 hr
        exact hs.uses.trans (by decide)
    · intro r hr
      rcases List.mem_append.1 hr with hr | hr
      · exact h.tools r hr
      · obtain rfl := List.mem_singleton.1 hr
        exact ⟨hs.tools.1, hs.tools.2.trans (by decide)⟩
    · intro r hr
      rcases List.mem_append.1 hr with hr | hr
      · exact h.reference r hr
      · obtain rfl := List.mem_singleton.1 hr
        exact hs.reference

theorem Wf.usesOf_le (h : t.Wf) : t.usesOf session src ≤ maxUses := by
  unfold usesOf
  rcases hrow : t.rowOf session src with _ | row
  · exact Nat.zero_le _
  · exact h.uses row (mem_of_rowOf hrow).1

/-- Indexing a source adds its uses to those of its row, and to no other. -/
theorem usesOf_indexSource (hs : Fresh source) (other src : String) :
    (t.indexSource session source now).usesOf other src =
      if (other = session ∧ src = source.id) ∧
          ((t.rowOf session source.id).isSome ∨ (t.rows session).length < 512) then
        min (t.usesOf other src + source.uses) maxUses
      else t.usesOf other src := by
  obtain ⟨row, hrow, heq⟩ | ⟨hrow, hfull, heq⟩ | ⟨hrow, hroom, heq⟩ :=
    t.indexSource_cases session source now
  · have hfind : (t.indexSource session source now).rowOf other src = (t.rowOf other src).map
        fun r => if SourceRow.names session source.id r then
          { r with source := row.source.merge source, atMs := now } else r := by
      have hsame : SourceRow.names other src ∘ (fun r =>
          if SourceRow.names session source.id r then
            { r with source := row.source.merge source, atMs := now } else r) =
          SourceRow.names other src := by
        funext r
        rw [Function.comp_apply]
        split
        · rename_i hr
          rw [names_iff, Prod.mk.injEq] at hr
          rw [Bool.eq_iff_iff, names_iff, names_iff, hr.2]
          rfl
        · rfl
      rw [heq, rowOf, rowOf, updateWhere, List.find?_map, hsame]
    simp only [hrow, Option.isSome_some, true_or, and_true]
    by_cases hkey : other = session ∧ src = source.id
    · obtain ⟨rfl, rfl⟩ := hkey
      have hnames := names_iff.2 (Prod.ext (mem_of_rowOf hrow).2.1 (mem_of_rowOf hrow).2.2)
      simp only [usesOf, hfind, hrow, Option.map_some, hnames, if_true, and_self, Option.getD_some]
      rfl
    · rw [if_neg hkey, usesOf, hfind, usesOf]
      rcases hother : t.rowOf other src with _ | r
      · rfl
      · obtain ⟨-, hr⟩ := mem_of_rowOf hother
        have hnames : ¬SourceRow.names session source.id r = true := fun hnames => by
          rw [names_iff, Prod.mk.injEq] at hnames
          exact hkey ⟨hr.1.symm.trans hnames.1, hr.2.symm.trans hnames.2⟩
        simp only [Option.map_some, if_neg hnames]
  · rw [heq, if_neg]
    simp [hrow, hfull]
  · have hfind : (t.indexSource session source now).rowOf other src = (t.rowOf other src).or
        (if other = session ∧ src = source.id then
          some { sessionId := session, source, atMs := now } else none) := by
      rw [heq, rowOf, rowOf, List.find?_append]
      congr 1
      by_cases hkey : other = session ∧ src = source.id
      · obtain ⟨rfl, rfl⟩ := hkey
        simp [SourceRow.names]
      · rw [if_neg hkey]
        simp only [List.find?_singleton, SourceRow.names, Bool.and_eq_true, decide_eq_true_eq]
        rw [if_neg fun h => hkey ⟨h.1.symm, h.2.symm⟩]
    simp only [hroom, or_true, and_true]
    by_cases hkey : other = session ∧ src = source.id
    · obtain ⟨rfl, rfl⟩ := hkey
      have hle : source.uses ≤ maxUses := hs.uses.trans (by decide)
      simp only [usesOf, hfind, hrow, and_self, if_true, Option.none_or, Option.map_some,
        Option.map_none, Option.getD_some, Option.getD_none]
      omega
    · rw [if_neg hkey, usesOf, hfind, if_neg hkey, Option.or_none, usesOf]

/-- A source without uses changes no count. -/
theorem usesOf_indexSource_unused (h : t.Wf) (hs : Fresh source) (hunused : source.uses = 0)
    (other src : String) :
    (t.indexSource session source now).usesOf other src = t.usesOf other src := by
  rw [usesOf_indexSource hs]
  split
  · rw [hunused, Nat.add_zero, Nat.min_eq_left h.usesOf_le]
  · rfl

theorem reference_fresh {r : Json} (h : reference r = some source) :
    Fresh source ∧ source.uses = 0 := by
  simp only [reference, bind, Option.bind_eq_some_iff, Option.some.injEq] at h
  obtain ⟨path, -, kind, -, rfl⟩ := h
  refine ⟨⟨Nat.zero_le _, ⟨List.nodup_nil, Nat.zero_le _⟩, fun _ => ?_⟩, rfl⟩
  rw [List.isPrefixOf_iff_prefix, String.toList_append]
  exact List.prefix_append _ _

theorem references_fresh {text : String} (h : source ∈ references parse text) :
    Fresh source ∧ source.uses = 0 := by
  simp only [references] at h
  split at h
  · obtain ⟨r, -, hr⟩ := List.mem_filterMap.1 h
    exact reference_fresh hr
  · simp at h

theorem toolSource_fresh {name : String} (h : toolSource name = some source) :
    Fresh source ∧ source.uses = 1 ∧ "file:".toList.isPrefixOf source.id.toList = false := by
  unfold toolSource at h
  split at h
  · simp at h
  · obtain rfl := Option.some.inj h
    refine ⟨⟨le_rfl, ⟨List.nodup_singleton _, le_rfl⟩, fun hkind => ?_⟩, rfl, ?_⟩
    · simp only at hkind
      split at hkind <;> simp [SourceKind.ofReference] at hkind
    · simp only [String.toList_append]
      split <;> rfl

/-- The sources that a message refers to are not used by it. -/
theorem eventSources_fresh {event : EventKind} (htool : ∀ id name input, event ≠ .tool id name input)
    (h : source ∈ eventSources parse event) : Fresh source ∧ source.uses = 0 := by
  cases event with
  | user text requestId => exact references_fresh h
  | queuedMessageSent text requestId => exact references_fresh h
  | tool id name input => exact absurd rfl (htool id name input)
  | _ => simp [eventSources] at h

/-- Sources without uses, indexed one after the other, change no count. -/
theorem indexSources_unused : ∀ {sources : List TaskSource} {t : SourceTables}, t.Wf →
    (∀ source ∈ sources, Fresh source ∧ source.uses = 0) →
    let t' := sources.foldl (fun t source => t.indexSource session source now) t
    t'.Wf ∧ t'.observedTools = t.observedTools ∧
      (∀ other, (t.rows other).length ≤ (t'.rows other).length) ∧
      ∀ other src, t'.usesOf other src = t.usesOf other src
  | [], t, h, _ => ⟨h, rfl, fun _ => le_rfl, fun _ _ => rfl⟩
  | source :: sources, t, h, hall => by
    obtain ⟨⟨hfresh, hunused⟩, hall⟩ := List.forall_mem_cons.1 hall
    obtain ⟨hwf, hobserved, hrows, huses⟩ := indexSources_unused (h.indexSource hfresh) hall
    refine ⟨hwf, hobserved.trans observedTools_indexSource,
      fun other => (rows_indexSource t session other source now).trans (hrows other),
      fun other src => ?_⟩
    rw [List.foldl_cons, huses, usesOf_indexSource_unused h hfresh hunused]

theorem toolUses_concat (log : List (String × EventKind)) (session other : String)
    (event : EventKind) : toolUses (log ++ [(session, event)]) other =
      toolUses log other ++ if session = other then event.toolUse.toList else [] := by
  rw [toolUses, toolUses, List.filter_append, List.filterMap_append]
  by_cases hsession : session = other
  · rcases huse : event.toolUse with _ | use <;> simp [hsession, huse]
  · simp [hsession]

/-- What the tables say of what was indexed. Where there is room, a source has the uses that count
for it. -/
structure Accounted (log : List (String × EventKind)) (t : SourceTables) : Prop where
  wf : t.Wf
  seen : ∀ session id, (session, id) ∈ t.observedTools ↔ id ∈ (toolUses log session).map (·.1)
  counted : ∀ session, (t.rows session).length < 512 → ∀ src,
    t.usesOf session src = min (usesFor log session src) maxUses

theorem Accounted.empty : Accounted [] {} where
  wf := ⟨List.nodup_nil, by simp, by simp, by simp⟩
  seen := by simp [toolUses]
  counted := fun _ _ _ => rfl

/-- An event that shows no tool use that can be told leaves what counts as it is. -/
theorem Accounted.concat_none {event : EventKind} (h : Accounted log t)
    (hnone : event.toolUse = none) : Accounted (log ++ [(session, event)]) t := by
  have hsame (other : String) : toolUses (log ++ [(session, event)]) other = toolUses log other := by
    rw [toolUses_concat, hnone]
    simp
  exact ⟨h.wf, fun other id => by rw [hsame, h.seen],
    fun other hroom src => by rw [h.counted other hroom, usesFor, usesFor, hsame]⟩

theorem toolUse_eq_some {id name : String} {input : Json} (hid : ¬(id = "" ∨ 512 < id.utf8ByteSize)) :
    (EventKind.tool id name input).toolUse = some (id, name) := by
  rw [EventKind.toolUse, if_neg hid]

/-- A tool use counts the first time it is indexed. -/
theorem Accounted.indexTool (h : Accounted log t) (session id name : String) (input : Json)
    (now : ℕ) : Accounted (log ++ [(session, .tool id name input)]) (t.indexTool session id name now) := by
  unfold SourceTables.indexTool
  split
  · rename_i hid
    exact h.concat_none (if_pos hid)
  rename_i hid
  have huses (other : String) : toolUses (log ++ [(session, .tool id name input)]) other =
      toolUses log other ++ if session = other then [(id, name)] else [] := by
    rw [toolUses_concat, toolUse_eq_some hid]
    rfl
  split
  · -- the tool use was counted before
    rename_i hseen
    rw [h.seen] at hseen
    refine ⟨h.wf, fun other k => ?_, fun other hroom src => ?_⟩
    · rw [h.seen, huses, List.map_append, List.mem_append]
      refine ⟨.inl, fun hk => hk.elim (fun h => h) fun hk => ?_⟩
      split at hk
      · rename_i hother
        obtain rfl : k = id := by simpa using hk
        exact hother ▸ hseen
      · simp at hk
    · rw [h.counted other hroom, usesFor, usesFor, huses]
      split
      · rename_i hother
        rw [FirstSeen.count_of_mem (hother ▸ hseen)]
      · rw [List.append_nil]
  · rename_i hnew
    have hfresh : id ∉ (toolUses log session).map (·.1) := mt (h.seen session id).2 hnew
    have hseen (other k : String) : (other, k) ∈ t.observedTools ++ [(session, id)] ↔
        k ∈ (toolUses (log ++ [(session, .tool id name input)]) other).map (·.1) := by
      rw [List.mem_append, h.seen, huses, List.map_append, List.mem_append, List.mem_singleton,
        Prod.mk.injEq]
      by_cases hother : session = other <;> simp [hother, eq_comm]
    have hcount (other src : String) (hmine : session = other)
        (hsrc : (toolSource name).map (·.id) = some src) :
        usesFor (log ++ [(session, .tool id name input)]) other src = usesFor log other src + 1 := by
      subst hmine
      rw [usesFor, usesFor, huses, if_pos rfl, FirstSeen.count_of_not_mem hfresh,
        if_pos (decide_eq_true hsrc)]
    have hkeeps (other src : String)
        (hnot : ¬(session = other ∧ (toolSource name).map (·.id) = some src)) :
        usesFor (log ++ [(session, .tool id name input)]) other src = usesFor log other src := by
      rw [usesFor, usesFor, huses]
      by_cases hmine : session = other
      · subst hmine
        rw [if_pos rfl, FirstSeen.count_of_not_mem hfresh, if_neg, Nat.add_zero]
        exact fun h => hnot ⟨rfl, of_decide_eq_true h⟩
      · rw [if_neg hmine, List.append_nil]
    have hwf : Wf { t with observedTools := t.observedTools ++ [(session, id)] } :=
      ⟨h.wf.keys, h.wf.uses, h.wf.tools, h.wf.reference⟩
    rcases htool : toolSource name with _ | source
    · refine ⟨hwf, hseen, fun other hroom src => ?_⟩
      rw [hkeeps other src (by simp [htool])]
      exact h.counted other hroom src
    · show Accounted _ (SourceTables.indexSource
        { t with observedTools := t.observedTools ++ [(session, id)] } session source now)
      obtain ⟨hsource, hone, -⟩ := toolSource_fresh htool
      have hrows (other : String) := rows_indexSource
        { t with observedTools := t.observedTools ++ [(session, id)] } session other source now
      refine ⟨hwf.indexSource hsource, fun other k => ?_, fun other hroom src => ?_⟩
      · rw [observedTools_indexSource]
        exact hseen other k
      · have hbefore : t.usesOf other src = min (usesFor log other src) maxUses :=
          h.counted other ((hrows other).trans_lt hroom) src
        rw [usesOf_indexSource hsource]
        by_cases hkey : other = session ∧ src = source.id
        · obtain ⟨rfl, rfl⟩ := hkey
          rw [if_pos ⟨⟨rfl, rfl⟩, .inr ((hrows other).trans_lt hroom)⟩, hone, hcount other source.id rfl
            (by rw [htool]; rfl)]
          show min (t.usesOf other source.id + 1) maxUses = _
          rw [hbefore]
          omega
        · rw [if_neg fun h => hkey h.1, hkeeps other src fun h => ?_]
          · exact hbefore
          · rw [htool, Option.map_some, Option.some.injEq] at h
            exact hkey ⟨h.1.symm, h.2.symm⟩

/-- An event that is not a tool use changes no count. -/
theorem indexEvent_unused {event : EventKind} (h : t.Wf)
    (htool : ∀ id name input, event ≠ .tool id name input) :
    let t' := t.indexEvent parse session event now
    t'.Wf ∧ t'.observedTools = t.observedTools ∧
      (∀ other, (t.rows other).length ≤ (t'.rows other).length) ∧
      ∀ other src, t'.usesOf other src = t.usesOf other src := by
  have hfold : t.indexEvent parse session event now =
      (eventSources parse event).foldl (fun t source => t.indexSource session source now) t := by
    cases event <;> first | rfl | exact absurd rfl (htool _ _ _)
  rw [hfold]
  exact indexSources_unused h fun source hsource => eventSources_fresh htool hsource

theorem Accounted.indexEvent (h : Accounted log t) (session : String) (event : EventKind) (now : ℕ) :
    Accounted (log ++ [(session, event)]) (t.indexEvent parse session event now) := by
  by_cases htool : ∃ id name input, event = .tool id name input
  · obtain ⟨id, name, input, rfl⟩ := htool
    exact h.indexTool session id name input now
  · have hnot : ∀ id name input, event ≠ .tool id name input := fun id name input heq =>
      htool ⟨id, name, input, heq⟩
    have hnone : event.toolUse = none := by
      cases event <;> first | rfl | exact absurd rfl (hnot _ _ _)
    obtain ⟨hwf, hobserved, hrows, huses⟩ :=
      indexEvent_unused h.wf hnot
    have hall : Accounted (log ++ [(session, event)]) t := h.concat_none hnone
    exact ⟨hwf, fun other id => by rw [hobserved]; exact hall.seen other id,
      fun other hroom src => by
        rw [huses]
        exact hall.counted other ((hrows other).trans_lt hroom) src⟩

/-- Everything that was indexed, one call after the other. -/
theorem Accounted.indexEvents : ∀ {calls : List (String × EventKind)} {log t}, Accounted log t →
    Accounted (log ++ calls)
      (calls.foldl (fun t c => t.indexEvent parse c.1 c.2 now) t)
  | [], log, t, h => by simpa using h
  | c :: calls, log, t, h => by
    have hone : Accounted (log ++ [c]) (t.indexEvent parse c.1 c.2 now) := h.indexEvent c.1 c.2 now
    have hall : Accounted ((log ++ [c]) ++ calls) _ := hone.indexEvents
    simpa [List.append_assoc] using hall

/-- Indexing again what was indexed changes no count. -/
theorem indexEvents_again : ∀ {calls : List (String × EventKind)} {t : SourceTables}, t.Wf →
    (∀ c ∈ calls, ∀ use ∈ c.2.toolUse, (c.1, use.1) ∈ t.observedTools) → ∀ other src,
      (calls.foldl (fun t c => t.indexEvent parse c.1 c.2 now) t).usesOf other src =
        t.usesOf other src
  | [], _, _, _, _, _ => rfl
  | (session, event) :: calls, t, h, hseen, other, src => by
    obtain ⟨hthis, hrest⟩ := List.forall_mem_cons.1 hseen
    obtain ⟨hwf, hobserved, huses⟩ : (t.indexEvent parse session event now).Wf ∧
        (t.indexEvent parse session event now).observedTools = t.observedTools ∧
        (t.indexEvent parse session event now).usesOf other src = t.usesOf other src := by
      by_cases htool : ∃ id name input, event = .tool id name input
      · obtain ⟨id, name, input, rfl⟩ := htool
        have hsame : t.indexTool session id name now = t := by
          unfold SourceTables.indexTool
          split
          · rfl
          · rename_i hid
            rw [if_pos (hthis (id, name) (by rw [toolUse_eq_some hid]; rfl))]
        simp only [SourceTables.indexEvent, hsame]
        exact ⟨h, trivial, trivial⟩
      · obtain ⟨hwf, hobserved, -, huses⟩ := indexEvent_unused h
          fun id name input heq => htool ⟨id, name, input, heq⟩
        exact ⟨hwf, hobserved, huses other src⟩
    rw [List.foldl_cons, indexEvents_again hwf (fun c hc use huse => by
      rw [hobserved]; exact hrest c hc use huse), huses]

end SourceTables

namespace IndexedStore

open SourceTables

variable {parse : String → Option Json}

/-- What an operation indexes, in order. -/
def calls (parse : String → Option Json) (s : IndexedStore) (o : SourceOp × ℕ) :
    List (String × EventKind) :=
  match s.apply parse o with
  | .error _ => []
  | .ok s' =>
    match o.1 with
    | .store op =>
      if op.indexes then
        (s'.store.events.drop s.store.events.length).map fun row => (row.sessionId, row.event)
      else []
    | .observeTool session id name => [(session, .tool id name .null)]
    | .sources session => (s.window session).map fun row => (session, row.event)

/-- What the operations of a run index, in order. -/
def indexed (parse : String → Option Json) : IndexedStore → List (SourceOp × ℕ) →
    List (String × EventKind)
  | _, [] => []
  | s, o :: ops => s.calls parse o ++ indexed parse (s.step parse o) ops

theorem sources_eq_ok {s s' : IndexedStore} {session : String} {now : ℕ}
    {out : List TaskSource × Bool} (h : s.sources parse session now = .ok (out, s')) :
    (∃ x, s.store.session session = .ok x) ∧ s'.store = s.store ∧
      s'.tables = ((s.window session).map fun row => (session, row.event)).foldl
        (fun t c => t.indexEvent parse c.1 c.2 now) s.tables ∧
      ∀ source ∈ out.1, ∃ row ∈ s'.tables.rows session, row.source = source := by
  simp only [sources, bind_eq_ok] at h
  obtain ⟨x, hx, h⟩ := h
  obtain ⟨hout, hs'⟩ := Prod.mk.inj (Except.ok.inj h)
  have htables := congrArg IndexedStore.tables hs'
  simp only at htables
  refine ⟨⟨x, hx⟩, hs' ▸ rfl, by rw [List.foldl_map, ← htables], fun source hsource => ?_⟩
  simp only [← hout, List.mem_map] at hsource
  obtain ⟨row, hrow, rfl⟩ := hsource
  rw [← htables]
  exact ⟨row, (List.mem_insertionSort _).1 (List.mem_of_mem_take (List.mem_of_mem_take hrow)), rfl⟩

theorem apply_tables {s s' : IndexedStore} {o : SourceOp × ℕ} (h : s.apply parse o = .ok s') :
    s'.tables = (s.calls parse o).foldl (fun t c => t.indexEvent parse c.1 c.2 o.2) s.tables := by
  obtain ⟨op, now⟩ := o
  simp only [calls, h]
  cases op with
  | store op =>
    simp only [apply, bind_eq_ok] at h
    obtain ⟨store, -, h⟩ := h
    obtain rfl := Except.ok.inj h
    simp only
    split
    · rw [List.foldl_map]
    · rfl
  | observeTool session id name =>
    simp only [apply, observeTool] at h
    split at h
    · rename_i hid
      obtain rfl := Except.ok.inj h
      exact (if_pos hid).symm
    · simp only [bind_eq_ok] at h
      obtain ⟨_, -, h⟩ := h
      obtain rfl := Except.ok.inj h
      rfl
  | sources session =>
    obtain ⟨⟨out, t⟩, hsources, rfl⟩ := map_eq_ok.1 h
    exact (sources_eq_ok hsources).2.2.1

/-- Every operation keeps the account. -/
theorem step_accounted {log : List (String × EventKind)} {s : IndexedStore} {o : SourceOp × ℕ}
    (h : Accounted log s.tables) : Accounted (log ++ s.calls parse o) (s.step parse o).tables := by
  rcases happly : s.apply parse o with e | s'
  · rw [step, Runs.attempt_error happly, calls, happly, List.append_nil]
    exact h
  · rw [step, Runs.attempt_ok happly, apply_tables happly]
    exact h.indexEvents

theorem after_accounted : ∀ {ops : List (SourceOp × ℕ)} {log : List (String × EventKind)}
    {s : IndexedStore}, Accounted log s.tables →
      Accounted (log ++ indexed parse s ops) (s.after parse ops).tables
  | [], log, s, h => by
    rw [indexed, List.append_nil]
    exact h
  | o :: ops, log, s, h => by
    have hall : Accounted ((log ++ s.calls parse o) ++ indexed parse (s.step parse o) ops)
        ((s.step parse o).after parse ops).tables := after_accounted (step_accounted h)
    rw [indexed, ← List.append_assoc]
    exact hall

theorem sources_succeeds {s : IndexedStore} {session : String} {x : Session} (now : ℕ)
    (h : s.store.session session = .ok x) :
    ∃ out s', s.sources parse session now = .ok (out, s') := by
  simp only [sources, bind_eq_ok]
  exact ⟨_, _, x, h, rfl⟩

end IndexedStore

theorem SourceTables.Wf.usesOf_row {t : SourceTables} (h : t.Wf) {session : String} {row : SourceRow}
    (hrow : row ∈ t.rows session) : t.usesOf session row.source.id = row.source.uses := by
  obtain ⟨hmem, hsession⟩ := List.mem_filter.1 hrow
  rw [decide_eq_true_eq] at hsession
  rcases hfound : t.rowOf session row.source.id with _ | other
  · exact absurd (List.mem_map.2 ⟨row, hmem, by rw [hsession]⟩) (SourceTables.not_mem_of_rowOf hfound)
  · obtain ⟨hother, hkey⟩ := SourceTables.mem_of_rowOf hfound
    obtain rfl := List.inj_on_of_nodup_map h.keys hother hmem
      (Prod.ext (hkey.1.trans hsession.symm) hkey.2)
    rw [SourceTables.usesOf, hfound]
    rfl

/-- No tool use counts for what a message refers to. -/
theorem usesFor_reference {log : List (String × EventKind)} {session src : String}
    (h : "file:".toList.isPrefixOf src.toList = true) : usesFor log session src = 0 := by
  rw [usesFor, FirstSeen.count, List.countP_eq_zero]
  intro p _ hp
  obtain ⟨source, hsource, rfl⟩ := Option.map_eq_some_iff.1 (of_decide_eq_true hp)
  rw [(SourceTables.toolSource_fresh hsource).2.2] at h
  exact Bool.false_ne_true h

open IndexedStore SourceTables in
/-- The sources of a session after any run, on a database that may have a history without an index.
With fewer than 512 sources, the uses of a tool or connector are the tool uses of the session that
were first seen with a name of its own, up to the largest `u32`; a reference has none. A tool list
names at most 64 tools, each once. Listing the sources once more changes no count. -/
theorem sources_count_once (parse : String → Option Json) (s₀ : Store)
    (ops : List (SourceOp × ℕ)) (session : String)
    (hroom : ((IndexedStore.after parse { store := s₀ } ops).tables.rows session).length < 512) :
    (∀ row ∈ (IndexedStore.after parse { store := s₀ } ops).tables.rows session,
      (row.source.kind.ofReference = false → row.source.uses =
        min (usesFor (indexed parse { store := s₀ } ops) session row.source.id) maxUses) ∧
      (row.source.kind.ofReference = true → row.source.uses = 0) ∧
      row.source.tools.Nodup ∧ row.source.tools.length ≤ 64) ∧
    (∀ src, 0 < usesFor (indexed parse { store := s₀ } ops) session src →
      ∃ row ∈ (IndexedStore.after parse { store := s₀ } ops).tables.rows session,
        row.source.id = src) ∧
    ∀ now out s₁,
      (IndexedStore.after parse { store := s₀ } ops).sources parse session now = .ok (out, s₁) →
      (∀ source ∈ out.1, ∃ row ∈ s₁.tables.rows session, row.source = source) ∧
      ∀ now', ∃ out' s₂, s₁.sources parse session now' = .ok (out', s₂) ∧
        ∀ other src, s₂.tables.usesOf other src = s₁.tables.usesOf other src := by
  have hall : Accounted (indexed parse { store := s₀ } ops)
      (IndexedStore.after parse { store := s₀ } ops).tables := by
    have hrun : Accounted ([] ++ indexed parse { store := s₀ } ops)
        (IndexedStore.after parse { store := s₀ } ops).tables := after_accounted Accounted.empty
    rwa [List.nil_append] at hrun
  refine ⟨fun row hrow => ?_, fun src hpos => ?_, fun now out s₁ hsources => ?_⟩
  · have huses := hall.counted session hroom row.source.id
    rw [hall.wf.usesOf_row hrow] at huses
    have hmem := (List.mem_filter.1 hrow).1
    refine ⟨fun _ => huses, fun hkind => ?_, hall.wf.tools row hmem⟩
    rw [huses, usesFor_reference (hall.wf.reference row hmem hkind)]
    rfl
  · have huses := hall.counted session hroom src
    unfold usesOf at huses
    rcases hfound : (IndexedStore.after parse { store := s₀ } ops).tables.rowOf session src with
      _ | row
    · rw [hfound, Option.map_none, Option.getD_none] at huses
      unfold maxUses at huses
      omega
    · obtain ⟨hmem, hkey⟩ := mem_of_rowOf hfound
      exact ⟨row, List.mem_filter.2 ⟨hmem, decide_eq_true hkey.1⟩, hkey.2⟩
  · obtain ⟨⟨x, hx⟩, hstore, htables, hrows⟩ := sources_eq_ok hsources
    refine ⟨hrows, fun now' => ?_⟩
    obtain ⟨out', s₂, hagain⟩ : ∃ out' s₂, s₁.sources parse session now' = .ok (out', s₂) :=
      sources_succeeds now' (hstore.symm ▸ hx)
    obtain ⟨-, -, htables', -⟩ := sources_eq_ok hagain
    have hfirst : Accounted (indexed parse { store := s₀ } ops ++
        ((IndexedStore.after parse { store := s₀ } ops).window session).map
          fun row => (session, row.event)) s₁.tables := by
      rw [htables]
      exact hall.indexEvents
    have hwindow : s₁.window session =
        (IndexedStore.after parse { store := s₀ } ops).window session := by
      unfold window history
      rw [hstore]
    refine ⟨out', s₂, hagain, fun other src => ?_⟩
    rw [htables', hwindow]
    refine indexEvents_again hfirst.wf (fun c hc use huse => ?_) other src
    rw [hfirst.seen]
    refine List.mem_map.2 ⟨use, ?_, rfl⟩
    rw [toolUses, List.filter_append, List.filterMap_append, List.mem_append]
    exact .inr (List.mem_filterMap.2 ⟨c, List.mem_filter.2 ⟨hc, decide_eq_true rfl⟩, huse⟩)

/-! ### Tools observed one after the other -/

/-- The words of a length over two letters. -/
def words : ℕ → List String
  | 0 => [""]
  | n + 1 => (words n).map ("a" ++ ·) ++ (words n).map ("b" ++ ·)

theorem length_words : ∀ n, (words n).length = 2 ^ n
  | 0 => rfl
  | n + 1 => by
    rw [words, List.length_append, List.length_map, List.length_map, length_words n]
    omega

theorem size_words : ∀ {n : ℕ} {w : String}, w ∈ words n → w.utf8ByteSize = n
  | 0, w, h => by
    obtain rfl := List.mem_singleton.1 h
    rfl
  | n + 1, w, h => by
    have hone : "a".utf8ByteSize = 1 ∧ "b".utf8ByteSize = 1 := ⟨rfl, rfl⟩
    rcases List.mem_append.1 h with h | h <;> obtain ⟨v, hv, rfl⟩ := List.mem_map.1 h <;>
      rw [String.utf8ByteSize_append, size_words hv] <;> omega

theorem nodup_words : ∀ n, (words n).Nodup
  | 0 => List.nodup_singleton _
  | n + 1 => by
    have hinj (letter : String) : Function.Injective (letter ++ ·) := fun v w h => by
      have := congrArg String.toList h
      simpa [String.toList_append, String.toList_inj] using this
    rw [words, List.nodup_append]
    refine ⟨(nodup_words n).map (hinj _), (nodup_words n).map (hinj _), fun v hv w hw heq => ?_⟩
    obtain ⟨x, -, rfl⟩ := List.mem_map.1 hv
    obtain ⟨y, -, rfl⟩ := List.mem_map.1 hw
    have := congrArg String.toList heq
    simp [String.toList_append] at this

/-- The tool `x` is observed under these ids. -/
def observations (ids : List String) : List (SourceOp × ℕ) :=
  ids.map fun id => (.observeTool "s" id "x", 0)

/-- A database with the session `s`. -/
def oneSession : Store where
  sessions := [{ (default : Session) with id := "s" }]

section

variable {parse : String → Option Json}

theorem observed_step {s : IndexedStore} (h : s.store = oneSession) (id : String) :
    s.step parse (.observeTool "s" id "x", 0) =
        { s with tables := s.tables.indexTool "s" id "x" 0 } ∧
      s.calls parse (.observeTool "s" id "x", 0) = [("s", .tool id "x" .null)] := by
  have hok : s.apply parse (.observeTool "s" id "x", 0) =
      .ok { s with tables := s.tables.indexTool "s" id "x" 0 } := by
    simp only [IndexedStore.apply, IndexedStore.observeTool]
    split
    · rename_i hid
      rw [SourceTables.indexTool, if_pos hid]
    · rw [Store.referenceSession, h, bailIf_pass (by decide)]
  refine ⟨Runs.attempt_ok hok, ?_⟩
  simp only [IndexedStore.calls, hok]

theorem toolSource_x : toolSource "x" = some
    { id := "tool:x", name := "x", kind := .tool, path := none, mimeType := none, tools := ["x"]
      uses := 1 } := by
  decide

/-- What the observations index, and that they make one source. -/
theorem observed_run : ∀ {ids : List String} {s : IndexedStore}, s.store = oneSession →
    (∀ r ∈ s.tables.taskSources, (r.sessionId, r.source.id) = ("s", "tool:x")) →
    s.indexed parse (observations ids) = ids.map (fun id => ("s", .tool id "x" .null)) ∧
      ∀ r ∈ (s.after parse (observations ids)).tables.taskSources,
        (r.sessionId, r.source.id) = ("s", "tool:x")
  | [], s, _, hrows => ⟨rfl, hrows⟩
  | id :: ids, s, hstore, hrows => by
    obtain ⟨hstep, hcalls⟩ := observed_step hstore id
    have hnext : ∀ r ∈ (s.tables.indexTool "s" id "x" 0).taskSources,
        (r.sessionId, r.source.id) = ("s", "tool:x") := by
      unfold SourceTables.indexTool
      split
      · exact hrows
      split
      · exact hrows
      rw [toolSource_x]
      exact fun r hr => (SourceTables.mem_indexSource hr).elim (hrows r) fun h => h
    have hrest : ({ s with tables := s.tables.indexTool "s" id "x" 0 } : IndexedStore).store =
        oneSession := hstore
    obtain ⟨hindexed, hall⟩ := observed_run hrest hnext
    refine ⟨?_, ?_⟩
    · show s.calls parse _ ++ IndexedStore.indexed parse (s.step parse _) (observations ids) = _
      rw [hcalls, hstep, hindexed]
      rfl
    · show ∀ r ∈ ((s.step parse _).after parse (observations ids)).tables.taskSources, _
      rw [hstep]
      exact hall

/-- As many observations as there are words of a length make one source, with as many uses as fit. -/
theorem observed_words {n : ℕ} (hn : 0 < n) (hsmall : n ≤ 512) :
    (((IndexedStore.after parse { store := oneSession } (observations (words n))).tables.rows
      "s").length < 512) ∧
    ∃ row ∈ (IndexedStore.after parse { store := oneSession }
        (observations (words n))).tables.rows "s",
      row.source.kind.ofReference = false ∧ row.source.uses = min (2 ^ n) maxUses ∧
        usesFor (IndexedStore.indexed parse { store := oneSession } (observations (words n))) "s"
          row.source.id = 2 ^ n := by
  obtain ⟨hindexed, hrows⟩ := @observed_run parse (words n) { store := oneSession } rfl (by simp)
  have hall : SourceTables.Accounted
      ([] ++ IndexedStore.indexed parse { store := oneSession } (observations (words n)))
      (IndexedStore.after parse { store := oneSession } (observations (words n))).tables :=
    IndexedStore.after_accounted SourceTables.Accounted.empty
  rw [List.nil_append] at hall
  have huses : toolUses (IndexedStore.indexed parse { store := oneSession } (observations (words n)))
      "s" = (words n).map fun id => (id, "x") := by
    have huse : ∀ w ∈ words n, (EventKind.tool w "x" .null).toolUse = some (w, "x") := fun w hw => by
      have hsize := size_words hw
      refine SourceTables.toolUse_eq_some fun h => h.elim (fun hempty => ?_) (by omega)
      rw [hempty] at hsize
      exact hn.ne hsize
    rw [hindexed, toolUses, List.filter_eq_self.2 (by simp), List.filterMap_map]
    refine (List.filterMap_congr huse).trans ?_
    simp
  have hcount : usesFor (IndexedStore.indexed parse { store := oneSession }
      (observations (words n))) "s" "tool:x" = 2 ^ n := by
    have hnodup : (((words n).map fun id => (id, "x")).map (·.1)).Nodup := by
      simpa [List.map_map, Function.comp_def] using nodup_words n
    rw [usesFor, huses, FirstSeen.count, FirstSeen.firsts_of_nodup hnodup, List.countP_map,
      ← length_words n, List.countP_eq_length]
    intro w _
    rw [Function.comp_apply, toolSource_x]
    rfl
  have hroom : ((IndexedStore.after parse { store := oneSession }
      (observations (words n))).tables.rows "s").length < 512 := by
    have hle := List.length_filter_le (fun r : SourceRow => decide (r.sessionId = "s"))
      (IndexedStore.after parse { store := oneSession } (observations (words n))).tables.taskSources
    have hone := (List.subperm_of_subset hall.wf.keys fun key hkey => by
      obtain ⟨r, hr, rfl⟩ := List.mem_map.1 hkey
      exact List.mem_singleton.2 (hrows r hr)).length_le
    rw [List.length_map, List.length_singleton] at hone
    exact (hle.trans hone).trans_lt (by decide)
  refine ⟨hroom, ?_⟩
  have hcounted := hall.counted "s" hroom "tool:x"
  rw [hcount, SourceTables.usesOf] at hcounted
  rcases hfound : (IndexedStore.after parse { store := oneSession }
      (observations (words n))).tables.rowOf "s" "tool:x" with _ | row
  · have hpos := Nat.two_pow_pos n
    rw [hfound, Option.map_none, Option.getD_none] at hcounted
    unfold maxUses at hcounted
    omega
  · obtain ⟨hmem, hkey⟩ := SourceTables.mem_of_rowOf hfound
    rw [hfound, Option.map_some, Option.getD_some] at hcounted
    refine ⟨row, List.mem_filter.2 ⟨hmem, decide_eq_true hkey.1⟩, ?_, hcounted, by rw [hkey.2, hcount]⟩
    by_contra hkind
    have hfile := hall.wf.reference row hmem (by simpa using hkind)
    rw [hkey.2] at hfile
    exact absurd hfile (by decide)

end

/-- A tool that was observed under `2 ^ 32` ids has one use less: the counter stays at the largest
`u32`. -/
theorem sources_count_saturates :
    (((IndexedStore.after (fun _ => none) { store := oneSession }
      (observations (words 32))).tables.rows "s").length < 512) ∧
    ∃ row ∈ (IndexedStore.after (fun _ => none) { store := oneSession }
        (observations (words 32))).tables.rows "s",
      row.source.kind.ofReference = false ∧ row.source.uses ≠
        usesFor (IndexedStore.indexed (fun _ => none) { store := oneSession }
          (observations (words 32))) "s" row.source.id := by
  obtain ⟨hroom, row, hrow, hkind, huses, hcount⟩ :=
    @observed_words (fun _ => none) 32 (by decide) (by decide)
  refine ⟨hroom, row, hrow, hkind, ?_⟩
  rw [huses, hcount]
  unfold maxUses
  omega

/-- One tool use observed twice and a second one of the same connector, listed twice. -/
def docsOps : List (SourceOp × ℕ) :=
  [(.observeTool "s" "one" "mcp__docs__read", 1), (.observeTool "s" "one" "mcp__docs__read", 2),
    (.sources "s", 3), (.observeTool "s" "child:two" "mcp__docs__search", 4), (.sources "s", 5)]

theorem sources_count_once_docs :
    (∀ row ∈ (IndexedStore.after (fun _ => none) { store := oneSession } docsOps).tables.rows "s",
      row.source.kind.ofReference = false → row.source.uses =
        min (usesFor (IndexedStore.indexed (fun _ => none) { store := oneSession } docsOps) "s"
          row.source.id) maxUses) ∧
    usesFor (IndexedStore.indexed (fun _ => none) { store := oneSession } docsOps) "s"
      "connector:docs" = 2 :=
  ⟨fun row hrow => ((sources_count_once (fun _ => none) oneSession docsOps "s"
    (by decide +kernel)).1 row hrow).1, by decide +kernel⟩

end LatteWork
