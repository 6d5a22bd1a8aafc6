import LatteWork.Proofs.HistoryPages
import LatteWork.Proofs.Redaction
import LatteWork.Store.Transcripts

/-!
# The texts of what is shown

Where the strings of a shown event come from: a redacted event, a run of neighbouring texts that
was joined, or the few texts the server writes of its own.
-/

namespace LatteWork

open Fallible Occurrence

/-- What the server writes of its own into the events it shows. -/
def serverTexts : List String :=
  ["notice", "旧事件过大，已省略展示；原始记录保留。", "text",
    "图片未展示：格式不支持或内容超过预览上限。", clippedMark]

/-- No string of the event has an occurrence of `p`. -/
def EventKind.Clean (p : List Char) (e : EventKind) : Prop :=
  ∀ text ∈ e.toJson.strings, ¬p <:+: text.toList

/-- `serde_json::from_value` takes a redacted event for what is written there. -/
def ReadsBack (fromValue : Json → Option AgentEvent) (config : LaunchConfig) : Prop :=
  ∀ e r : AgentEvent, fromValue (e.event.toJson.mapStrings config.redact) = some r →
    r.event.toJson = e.event.toJson.mapStrings config.redact

namespace EventKind

theorem kind_unmarked (e : EventKind) : '[' ∉ e.kind.toList := by
  cases e <;> simp only [kind] <;> decide

theorem kind_text {e : EventKind} : e.kind = "text" ↔ ∃ t, e = .text t := by
  cases e <;> simp [kind]

theorem strings_text (t : String) : (EventKind.text t).toJson.strings = ["text", t] := rfl

variable {p : List Char}

theorem Clean.text {t : String} (h : (EventKind.text t).Clean p) : ¬p <:+: t.toList :=
  h t (by simp [strings_text])

/-- A text of a text event takes the place of another. -/
theorem Clean.retext {t u : String} (h : (EventKind.text t).Clean p) (hu : ¬p <:+: u.toList) :
    (EventKind.text u).Clean p := by
  intro v hv
  simp only [strings_text, List.mem_cons, List.not_mem_nil, or_false] at hv
  rcases hv with rfl | rfl
  · exact h _ (by simp [strings_text])
  · exact hu

end EventKind

section Redacted

variable {config : LaunchConfig} {p : List Char} {fromValue : Json → Option AgentEvent}
  {e r : AgentEvent}

theorem redactEvent_toJson (hread : ReadsBack fromValue config)
    (h : config.redactEvent fromValue e = .ok r) :
    r.event.toJson = e.event.toJson.mapStrings config.redact :=
  hread e r (orError_eq_ok.1 h)

theorem redactEvent_clean (hc : config.Redacts p) (hread : ReadsBack fromValue config)
    (h : config.redactEvent fromValue e = .ok r) : r.event.Clean p := by
  intro text htext
  rw [redactEvent_toJson hread h, Json.strings_mapStrings] at htext
  obtain ⟨_, _, rfl⟩ := List.mem_map.1 htext
  exact hc.clean _

/-- Redaction leaves a text a text, and makes none. -/
theorem redactEvent_asText (hc : config.Redacts p) (hread : ReadsBack fromValue config)
    (h : config.redactEvent fromValue e = .ok r) :
    r.event.asText = e.event.asText.map config.redact := by
  have hjson := redactEvent_toJson hread h
  simp only [EventKind.toJson, Json.mapStrings, Json.mapFields, Json.obj.injEq, List.cons.injEq,
    Prod.mk.injEq, true_and, Json.str.injEq] at hjson
  obtain ⟨hkind, hfields⟩ := hjson
  have hsame : r.event.kind = e.event.kind := by
    rw [hkind, hc.redact_word]
    rw [← hkind]
    exact r.event.kind_unmarked
  rcases he : e.event.asText with _ | t
  · rcases hr : r.event.asText with _ | u
    · rfl
    · obtain ⟨t, ht⟩ := EventKind.kind_text.1
        (hsame ▸ EventKind.kind_text.2 ⟨u, EventKind.asText_eq_some.1 hr⟩)
      simp [ht] at he
  · rw [EventKind.asText_eq_some] at he
    obtain ⟨u, hu⟩ := EventKind.kind_text.1 (hsame.trans (EventKind.kind_text.2 ⟨t, he⟩))
    rw [hu, he] at hfields
    simp only [EventKind.fields, Json.mapFields, Json.mapStrings, List.cons.injEq, Prod.mk.injEq,
      Json.str.injEq] at hfields
    simp [hu, hfields.1.2]

end Redacted

section Coalesced

/-- A run of neighbouring texts. -/
def TextRun (block : List Event) (texts : List String) : Prop :=
  block.map (·.event) = texts.map .text

/-- What joining makes of a log: its other events as they are, and texts that are a run of
neighbouring texts joined; the first one's run is at the front. -/
theorem coalesce_runs : ∀ l : List Event,
    (∀ e ∈ coalesce l, e ∈ l ∨
      ∃ block texts, block <:+: l ∧ TextRun block texts ∧ e.event = .text (String.join texts)) ∧
    ∀ e ∈ (coalesce l).head?, ∀ u, e.event = .text u →
      ∃ block texts, block <+: l ∧ TextRun block texts ∧ u = String.join texts
  | [] => by simp [coalesce]
  | e :: rest => by
    obtain ⟨ihall, ihhead⟩ := coalesce_runs rest
    have hlift : ∀ x ∈ coalesce rest, x ∈ e :: rest ∨ ∃ block texts, block <:+: e :: rest ∧
        TextRun block texts ∧ x.event = .text (String.join texts) := by
      intro x hx
      obtain h | ⟨block, texts, hb, hrun, heq⟩ := ihall x hx
      · exact .inl (List.mem_cons_of_mem _ h)
      · exact .inr ⟨block, texts, hb.trans (List.infix_cons List.infix_rfl), hrun, heq⟩
    have halone : ∀ u, e.event = .text u →
        ∃ block texts, block <+: e :: rest ∧ TextRun block texts ∧ u = String.join texts :=
      fun u hu => ⟨[e], [u], by simp, by simp [TextRun, hu], by simp [String.join_cons]⟩
    simp only [coalesce]
    rcases hc : coalesce rest with _ | ⟨f, more⟩
    · refine ⟨by simp [joinText], ?_⟩
      simpa [joinText] using halone
    rw [hc] at hlift ihhead
    rcases het : e.event.asText with _ | t
    · simp only [joinText, het]
      refine ⟨fun x hx => ?_, fun x hx u hu => ?_⟩
      · rcases List.mem_cons.1 hx with rfl | hx
        · exact .inl List.mem_cons_self
        · exact hlift x hx
      · obtain rfl : e = x := by simpa using hx
        simp [hu] at het
    rcases hft : f.event.asText with _ | u
    · simp only [joinText, het, hft]
      refine ⟨fun x hx => ?_, fun x hx u hu => ?_⟩
      · rcases List.mem_cons.1 hx with rfl | hx
        · exact .inl List.mem_cons_self
        · exact hlift x hx
      · obtain rfl : e = x := by simpa using hx
        exact halone u hu
    · -- the text goes in front of the run at the front of the rest
      obtain ⟨block, texts, hb, hrun, rfl⟩ :=
        ihhead f rfl u (EventKind.asText_eq_some.1 hft)
      have hpre : e :: block <+: e :: rest := List.prefix_cons_inj e |>.2 hb
      have hrun' : TextRun (e :: block) (t :: texts) := by
        rw [EventKind.asText_eq_some] at het
        simp [TextRun, het, show block.map (·.event) = texts.map .text from hrun]
      simp only [joinText, het, hft]
      refine ⟨fun x hx => ?_, fun x hx v hv => ?_⟩
      · rcases List.mem_cons.1 hx with rfl | hx
        · exact .inr ⟨_, _, hpre.isInfix, hrun', by simp [String.join_cons]⟩
        · exact hlift x (List.mem_cons_of_mem _ hx)
      · simp only [List.head?_cons, Option.mem_def, Option.some.injEq] at hx
        subst hx
        exact ⟨_, _, hpre, hrun', by simpa [String.join_cons] using hv.symm⟩

end Coalesced

namespace Json

theorem mem_itemStrings {text : String} : ∀ {items : List Json},
    text ∈ itemStrings items ↔ ∃ v ∈ items, text ∈ v.strings := by
  intro items
  induction items with
  | nil => simp [itemStrings]
  | cons v rest ih => simp [itemStrings, ih]

theorem mem_fieldStrings {text : String} : ∀ {fields : List (String × Json)},
    text ∈ fieldStrings fields ↔ ∃ field ∈ fields, text ∈ field.2.strings := by
  intro fields
  induction fields with
  | nil => simp [fieldStrings]
  | cons field rest ih =>
    obtain ⟨key, v⟩ := field
    rw [fieldStrings, List.mem_append, ih]
    simp

theorem strings_get? {v w : Json} {key text : String} (h : v.get? key = some w)
    (ht : text ∈ w.strings) : text ∈ v.strings := by
  obtain ⟨fields, rfl, hmem⟩ := get?_eq_some h
  rw [strings, mem_fieldStrings]
  exact ⟨_, hmem, ht⟩

/-- A field that is read as text, and is not the empty one, is a string of the value. -/
theorem strings_field {v : Json} {key : String}
    (h : ((v.get? key).bind str?).getD "" ≠ "") :
    ((v.get? key).bind str?).getD "" ∈ v.strings := by
  rcases hk : v.get? key with _ | w
  · simp [hk] at h
  · rcases hw : w.str? with _ | text
    · simp [hk, hw] at h
    · refine strings_get? hk ?_
      rw [str?_eq_some] at hw
      simp [hw, str?, strings]

end Json

section Presented

/-- A projected image block says what the block said, or a text of the server's. -/
theorem toolBlock_strings (remaining images : ℕ) (block : Json) {text : String}
    (h : text ∈ (toolBlock remaining images block).1.strings) :
    text ∈ block.strings ∨ text ∈ serverTexts := by
  unfold toolBlock at h
  split at h
  · exact .inl h
  rename_i himage
  rw [not_not] at himage
  split at h
  · exact .inl h
  · rename_i source hsource
    simp only at h
    split at h
    · rename_i hsupported
      have hdata : ((source.get? "data").bind Json.str?).getD "" ∈ source.strings :=
        Json.strings_field hsupported.2.2.1
      have hmime : ((source.get? "media_type").bind Json.str?).getD "" ∈ source.strings := by
        refine Json.strings_field fun hempty => ?_
        have := hsupported.2.1
        simp [hempty] at this
      have htype : "image" ∈ block.strings := by
        obtain ⟨w, hw, himage⟩ := Option.bind_eq_some_iff.1 himage
        refine Json.strings_get? hw ?_
        simp [Json.str?_eq_some.1 himage, Json.strings]
      simp only [Json.strings, Json.fieldStrings, List.append_nil, List.mem_append,
        List.mem_singleton] at h
      rcases h with rfl | rfl | rfl
      · exact .inl (Json.strings_get? hsource hdata)
      · exact .inl (Json.strings_get? hsource hmime)
      · exact .inl htype
    · simp only [Json.strings, Json.fieldStrings, List.append_nil, List.mem_append,
        List.mem_singleton] at h
      rcases h with rfl | rfl <;> simp [serverTexts]

theorem toolBlocks_strings {text : String} : ∀ (remaining images : ℕ) (blocks : List Json),
    (∃ v ∈ toolBlocks remaining images blocks, text ∈ v.strings) →
      (∃ v ∈ blocks, text ∈ v.strings) ∨ text ∈ serverTexts
  | _, _, [], h => by simp [toolBlocks] at h
  | remaining, images, block :: rest, ⟨v, hv, ht⟩ => by
    rw [toolBlocks] at hv
    rcases List.mem_cons.1 hv with rfl | hv
    · exact (toolBlock_strings remaining images block ht).imp_left fun h => ⟨block, by simp, h⟩
    · refine (toolBlocks_strings _ _ rest ⟨v, hv, ht⟩).imp_left ?_
      rintro ⟨w, hw, h⟩
      exact ⟨w, List.mem_cons_of_mem _ hw, h⟩

theorem toolContent_strings {content : Json} {text : String}
    (h : text ∈ (toolContent content).strings) : text ∈ content.strings ∨ text ∈ serverTexts := by
  cases content with
  | arr blocks =>
    simp only [toolContent, Json.strings, Json.mem_itemStrings] at h ⊢
    exact toolBlocks_strings _ _ blocks h
  | _ => exact .inl h

variable {p : List Char} {agent : String} {data : EventKind}

theorem presented_clean (hown : ∀ text ∈ serverTexts, ¬p <:+: text.toList) (h : data.Clean p) :
    (presented agent data).Clean p := by
  unfold presented
  split
  · cases data with
    | toolResult id content isError =>
      intro text ht
      simp only [normalizeHistoryEvent, EventKind.toJson, EventKind.kind, EventKind.fields,
        Json.strings, Json.fieldStrings, List.mem_append, List.append_nil, List.mem_singleton] at ht
      have hdata : ∀ text, text = "tool_result" ∨ text = id ∨ text ∈ content.strings →
          ¬p <:+: text.toList := fun text ht => h text (by
        simpa [EventKind.toJson, EventKind.kind, EventKind.fields, Json.strings,
          Json.fieldStrings] using ht)
      rcases ht with ht | ht | ht
      · exact hdata text (.inl ht)
      · exact hdata text (.inr (.inl ht))
      · split at ht
        · rcases toolContent_strings ht with ht | ht
          · exact hdata text (.inr (.inr ht))
          · exact hown text ht
        · exact hdata text (.inr (.inr ht))
    | _ => exact h
  · exact h

/-- Only a text is presented as a text. -/
theorem presented_text {t : String} : presented agent data = .text t ↔ data = .text t := by
  unfold presented
  split
  · rename_i hresult
    cases data <;> simp_all [EventKind.isToolResult, normalizeHistoryEvent]
  · rfl

theorem presentationData_clean {row : EventRow}
    (hown : ∀ text ∈ serverTexts, ¬p <:+: text.toList) (h : row.event.Clean p) :
    row.presentationData.Clean p := by
  unfold EventRow.presentationData
  split
  · intro text ht
    refine hown text ?_
    simp only [EventKind.toJson, EventKind.kind, EventKind.fields, Json.strings,
      Json.fieldStrings, List.mem_append, List.append_nil, List.mem_singleton] at ht
    rcases ht with rfl | rfl <;> simp [serverTexts]
  · exact h

theorem shown_text {row : EventRow} {id t : String} (h : (row.shown agent id).event = .text t) :
    row.event = .text t := by
  rw [EventRow.shown_event, presented_text, EventRow.presentationData] at h
  split at h
  · cases h
  · exact h

end Presented

section Clipped

variable {p : List Char}

/-- Nothing on one line is completed by the mark of a clipped text. -/
theorem clippedMark_clean (hne : '\n' ∉ p) (hmark : ¬p <:+: clippedMark.toList) {a : List Char}
    (ha : ¬p <:+: a) : ¬p <:+: a ++ clippedMark.toList := by
  rw [infix_append]
  rintro (h | h | h)
  · exact ha h
  · exact hmark h
  · obtain ⟨u, v, -, hv, rfl, -, hb⟩ := h.parts
    rcases v with _ | ⟨c, v⟩
    · exact hv rfl
    · have hc : clippedMark.toList.head? = some c := by
        obtain ⟨rest, hrest⟩ := hb
        rw [← hrest]
        rfl
      obtain rfl : '\n' = c := by simpa [clippedMark] using hc
      exact hne (by simp)

/-- A text that clipping leaves a front of, behind another one. -/
theorem clip_clean (hne : '\n' ∉ p) (hmark : ¬p <:+: clippedMark.toList) {a : List Char}
    {limit : ℕ} {text : String} (h : ¬p <:+: a ++ text.toList) :
    ¬p <:+: a ++ (clip limit text).1.toList := by
  unfold clip
  split
  · exact h
  · rw [String.toList_append, String.toList_ofList, ← List.append_assoc]
    refine clippedMark_clean hne hmark fun hfront => h (hfront.trans ?_)
    exact ((List.prefix_append_right_inj a).2 (frontBytes_front _ _)).isInfix

theorem clipText_clean (hne : '\n' ∉ p) (hmark : ¬p <:+: clippedMark.toList) {a : List Char}
    {text : String} (h : ¬p <:+: a ++ text.toList) : ¬p <:+: a ++ (clipText text).1.toList := by
  unfold clipText
  split
  · exact clip_clean hne hmark h
  · exact h

theorem clip_alone (hne : '\n' ∉ p) (hmark : ¬p <:+: clippedMark.toList) {limit : ℕ} {text : String}
    (h : ¬p <:+: text.toList) : ¬p <:+: (clip limit text).1.toList := by
  simpa using clip_clean (a := []) hne hmark (by simpa using h)

theorem clipText_alone (hne : '\n' ∉ p) (hmark : ¬p <:+: clippedMark.toList) {text : String}
    (h : ¬p <:+: text.toList) : ¬p <:+: (clipText text).1.toList := by
  simpa using clipText_clean (a := []) hne hmark (by simpa using h)

theorem clipText_whole {text : String} (h : (clipText text).2 = false) : (clipText text).1 = text := by
  unfold clipText at h ⊢
  split
  · rename_i hlarge
    simp [hlarge] at h
  · rfl

theorem clipValue_strings {v : Json} (hne : '\n' ∉ p) (hmark : ¬p <:+: clippedMark.toList)
    (hv : ∀ text ∈ v.strings, ¬p <:+: text.toList)
    (hlarge : 32 * 1024 < v.size → ¬p <:+: v.render.toList) :
    ∀ text ∈ (clipValue v).1.strings, ¬p <:+: text.toList := by
  unfold clipValue
  split
  · exact hv
  · rename_i hsize
    intro text ht
    obtain rfl : text = _ := by simpa [Json.strings] using ht
    exact clip_alone hne hmark (hlarge (by omega))

/-- The value that `bounded_subagent_event` may turn into text. -/
def EventKind.payload : EventKind → Option Json
  | .tool _ _ input => some input
  | .toolResult _ content _ => some content
  | _ => none

variable {e e' : EventKind} {cut : Bool}

/-- Bounding an event brings in no credential, unless the text of a large value has it. -/
theorem bounded_clean (hne : '\n' ∉ p) (hmark : ¬p <:+: clippedMark.toList) (he : e.Clean p)
    (hlarge : ∀ v ∈ e.payload, 32 * 1024 < v.size → ¬p <:+: v.render.toList)
    (h : boundedSubagentEvent e = .ok (e', cut)) : e'.Clean p := by
  cases e with
  | text t =>
    simp only [boundedSubagentEvent, Except.ok.injEq, Prod.mk.injEq] at h
    rw [← h.1]
    exact he.retext (clipText_alone hne hmark he.text)
  | notice t =>
    simp only [boundedSubagentEvent, Except.ok.injEq, Prod.mk.injEq] at h
    rw [← h.1]
    have hold : ∀ text, text = "notice" ∨ text = t → ¬p <:+: text.toList := fun text ht =>
      he text (by simpa [EventKind.toJson, EventKind.kind, EventKind.fields, Json.strings,
        Json.fieldStrings] using ht)
    intro text ht
    simp only [EventKind.toJson, EventKind.kind, EventKind.fields, Json.strings,
      Json.fieldStrings, List.mem_append, List.append_nil, List.mem_singleton] at ht
    rcases ht with ht | ht
    · exact hold text (.inl ht)
    · rw [ht]
      exact clipText_alone hne hmark (hold t (.inr rfl))
  | tool id name input =>
    simp only [boundedSubagentEvent, bind_eq_ok, Except.ok.injEq, Prod.mk.injEq] at h
    obtain ⟨-, -, h, -⟩ := h
    rw [← h]
    have hold : ∀ text, text = "tool" ∨ text = id ∨ text = name ∨ text ∈ input.strings →
        ¬p <:+: text.toList := fun text ht => he text (by
      simpa [EventKind.toJson, EventKind.kind, EventKind.fields, Json.strings,
        Json.fieldStrings] using ht)
    intro text ht
    simp only [EventKind.toJson, EventKind.kind, EventKind.fields, Json.strings,
      Json.fieldStrings, List.mem_append, List.append_nil, List.mem_singleton] at ht
    rcases ht with ht | ht | ht | ht
    · exact hold text (.inl ht)
    · exact hold text (.inr (.inl ht))
    · rw [ht]
      exact clip_alone hne hmark (hold name (.inr (.inr (.inl rfl))))
    · exact clipValue_strings hne hmark (fun text ht => hold text (.inr (.inr (.inr ht))))
        (hlarge input rfl) text ht
  | toolResult id content isError =>
    simp only [boundedSubagentEvent, bind_eq_ok, Except.ok.injEq, Prod.mk.injEq] at h
    obtain ⟨-, -, h, -⟩ := h
    rw [← h]
    have hold : ∀ text, text = "tool_result" ∨ text = id ∨ text ∈ content.strings →
        ¬p <:+: text.toList := fun text ht => he text (by
      simpa [EventKind.toJson, EventKind.kind, EventKind.fields, Json.strings,
        Json.fieldStrings] using ht)
    intro text ht
    simp only [EventKind.toJson, EventKind.kind, EventKind.fields, Json.strings,
      Json.fieldStrings, List.mem_append, List.append_nil, List.mem_singleton] at ht
    rcases ht with ht | ht | ht
    · exact hold text (.inl ht)
    · exact hold text (.inr (.inl ht))
    · exact clipValue_strings hne hmark (fun text ht => hold text (.inr (.inr ht)))
        (hlarge content rfl) text ht
  | progress phase =>
    simp only [boundedSubagentEvent, Except.ok.injEq, Prod.mk.injEq] at h
    rw [← h.1]
    exact he
  | _ => cases h

theorem bounded_asText (h : boundedSubagentEvent e = .ok (e', cut)) :
    e'.asText = e.asText.map fun t => (clipText t).1 := by
  cases e <;> simp only [boundedSubagentEvent, bind_eq_ok, Except.ok.injEq, Prod.mk.injEq,
    reduceCtorEq] at h
  case text => simp [← h.1]
  case tool =>
    obtain ⟨-, -, h, -⟩ := h
    simp [← h, EventKind.asText]
  case toolResult =>
    obtain ⟨-, -, h, -⟩ := h
    simp [← h, EventKind.asText]
  all_goals rw [← h.1]; rfl

theorem bounded_text {t : String} (h : boundedSubagentEvent (.text t) = .ok (e', cut)) :
    cut = (clipText t).2 := by
  simp only [boundedSubagentEvent, Except.ok.injEq, Prod.mk.injEq] at h
  exact h.2.symm

end Clipped

end LatteWork
