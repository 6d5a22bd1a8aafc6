import LatteWork.Proofs.ClaudeDiscipline

/-!
# The texts of a Claude session

A text reaches the adapter streamed, in whole, or both. What one input does to what is shown
(`Hears`), and what a whole session shows: of each message its text once, whichever way it came
(`texts_once`).
-/

namespace LatteWork

namespace Claude

open Prog Assoc

/-! ## What a message is to a stream -/

/-- The child whose message it is, none for one of the turn. -/
def childOf (m : Json) : Option String := (m.index "parent_tool_use_id").str?

/-- A message that is of the turn or of a child. -/
def addressed (m : Json) : Bool := (m.index "parent_tool_use_id").isNull || (childOf m).isSome

/-- The text of a block. -/
def blockText (block : Json) : Option String :=
  if kind block = "text" then (block.index "text").str? else none

/-- The texts of a whole message. -/
def blockTexts (m : Json) : List String :=
  ((m.index "message").index "content").items.filterMap blockText

/-- The text an event streams. -/
def deltaText (event : Json) : Option String :=
  if kind event = "content_block_delta" ∧ kind (event.index "delta") = "text_delta" then
    ((event.index "delta").index "text").str?
  else none

/-- What a message is to the stream of a child, or of the turn. -/
inductive Part where
  | delta (text : String)
  | whole (texts : List String)
  | over
  | other

/-- A result ends what was being said, and so does the acknowledgement of a session. -/
def part (s : Option String) (m : Json) : Part :=
  if kind m = "stream_event" ∧ childOf m = s ∧ addressed m then
    match deltaText (m.index "event") with
    | some text => .delta text
    | none => .other
  else if kind m = "assistant" ∧ childOf m = s then .whole (if addressed m then blockTexts m else [])
  else if kind m = "result" ∧ resultChild m = s then .over
  else if acknowledges m ∧ s = none then .over
  else .other

section

variable {s t : Option String} {m : Json}

theorem part_stream (h : kind m = "stream_event") : part s m =
    if childOf m = s ∧ addressed m then
      match deltaText (m.index "event") with
      | some text => .delta text
      | none => .other
    else .other := by
  simp [part, acknowledges, h]

theorem part_assistant (h : kind m = "assistant") : part s m =
    if childOf m = s then .whole (if addressed m then blockTexts m else []) else .other := by
  simp [part, acknowledges, h]

theorem part_result (h : kind m = "result") :
    part s m = if resultChild m = s then .over else .other := by
  simp [part, acknowledges, h]

theorem part_rest (hs : kind m ≠ "stream_event") (ha : kind m ≠ "assistant") (hr : kind m ≠ "result") :
    part s m = if acknowledges m ∧ s = none then .over else .other := by
  simp [part, hs, ha, hr]

/-- A message has a part in one stream. -/
theorem part_other (h : part s m ≠ .other) (hne : t ≠ s) : part t m = .other := by
  by_cases hstream : kind m = "stream_event"
  · rw [part_stream hstream] at h ⊢
    by_cases hs : childOf m = s
    · rw [if_neg fun ht => hne (ht.1.symm.trans hs)]
    · rw [if_neg fun ht => hs ht.1] at h
      exact absurd rfl h
  by_cases hassistant : kind m = "assistant"
  · rw [part_assistant hassistant] at h ⊢
    by_cases hs : childOf m = s
    · rw [if_neg fun ht => hne (ht.symm.trans hs)]
    · rw [if_neg hs] at h
      exact absurd rfl h
  by_cases hresult : kind m = "result"
  · rw [part_result hresult] at h ⊢
    by_cases hs : resultChild m = s
    · rw [if_neg fun ht => hne (ht.symm.trans hs)]
    · rw [if_neg hs] at h
      exact absurd rfl h
  · rw [part_rest hstream hassistant hresult] at h ⊢
    by_cases hs : acknowledges m = true ∧ s = none
    · rw [if_neg fun ht => hne (ht.2.trans hs.2.symm)]
    · rw [if_neg hs] at h
      exact absurd rfl h

end

/-! ## What one input does -/

/-- What an answer shows, and whether it starts or ends a turn. -/
structure Tone where
  texts : List (Option String × String) := []
  started : Bool := false
  finished : Bool := false

def tone (out : List Action) : Tone where
  texts := out.filterMap textOf
  started := out.any Action.isTurnStarted
  finished := out.any Action.isFinished

namespace Speech

/-- A message finds the turn as it is, or starts one. `lift` says that the overflow stays. -/
inductive Enters (c : Speech) : Bool → Speech → Prop
  | stays : Enters c false c
  | starts {lift : Bool} : c.phase = .betweenTurns → Enters c true
      { c with phase := .running, streamed := false, emitted := false, overflow := c.overflow && lift }

/-- All that one accepted input does to what is shown. `follows` says which children are. -/
inductive Hears (follows : String → Bool) (c : Speech) : Input → Tone → Speech → Prop
  | aside {i} : (∀ line, i ≠ .message line) → startOf i = none → Hears follows c i {} c
  | «open» {i phase} : c.phase = .idle → (∀ line, i ≠ .message line) → startOf i = none →
      Hears follows c i {} { c with phase }
  | first {text} : c.phase = .idle →
      Hears follows c (.start text) {} { c with phase := .initializing text }
  | start {text lift} : c.phase = .betweenTurns → Hears follows c (.start text) {}
      { c with phase := .running, streamed := false, emitted := false, overflow := c.overflow && lift }
  | other {m d started} : (∀ s, part s m = .other) → c.Enters started d →
      Hears follows c (.message (some m)) { started } d
  | over {m phase} : part none m = .over → phase ≠ .idle →
      Hears follows c (.message (some m)) {} { c with phase }
  | delta {m text d started} : part none m = .delta text → c.Enters started d →
      d.phase ≠ .betweenTurns → d.phase ≠ .idle →
      Hears follows c (.message (some m)) { texts := [(none, text)], started }
        { d with streamed := true, emitted := true }
  | whole {m texts d started} : part none m = .whole texts → c.Enters started d → d.phase ≠ .idle →
      Hears follows c (.message (some m))
        { texts := if d.streamed then [] else texts.map fun text => (none, text), started }
        { d with streamed := false, emitted := d.emitted || (!d.streamed && !texts.isEmpty) }
  | result {m d started} : part none m = .over → c.Enters started d →
      Hears follows c (.message (some m))
        { texts := if failed m ∨ d.emitted then [] else
            ((m.index "result").str?.filter (· ≠ "")).toList.map fun text => (none, text)
          started, finished := true }
        { d with phase := .betweenTurns }
  | skipped {m p text} : part (some p) m = .delta text →
      (follows p = true → p ∉ c.children ∧ (512 ≤ c.children.length ∨ c.overflow = true)) →
      Hears follows c (.message (some m)) {} { c with overflow := c.overflow || follows p }
  | childDelta {m p text} : part (some p) m = .delta text → follows p = true →
      ¬(p ∉ c.children ∧ (512 ≤ c.children.length ∨ c.overflow = true)) →
      Hears follows c (.message (some m)) { texts := [(some p, text)] }
        { c with children := c.children.insert p }
  | childWhole {m p texts} : part (some p) m = .whole texts →
      Hears follows c (.message (some m))
        { texts := if follows p = true ∧ p ∉ c.children then texts.map fun text => (some p, text)
            else [] }
        { c with children := c.children.filter (· ≠ p) }
  | childOver {m p} : part (some p) m = .over →
      Hears follows c (.message (some m)) {} { c with children := c.children.filter (· ≠ p) }

end Speech

variable {a : Claude} {m : Json} {out more : List Action}

theorem Tone.ext_of {t u : Tone} (h₁ : t.texts = u.texts) (h₂ : t.started = u.started)
    (h₃ : t.finished = u.finished) : t = u := by
  cases t
  cases u
  simp_all

theorem Remarks.tone (h : Remarks out) : tone out = { texts := out.filterMap textOf } := by
  have hstarted : out.any Action.isTurnStarted = false := by
    rw [List.any_eq_false]
    intro x hx
    have := h x hx
    cases x <;> simp_all [remark, Action.isTurnStarted]
  rw [Claude.tone, hstarted, h.ends]

theorem Plain.tone (h : Plain out) : tone out = {} := by
  have htexts : out.filterMap textOf = [] := List.filterMap_eq_nil_iff.2 fun x hx =>
    Option.isNone_iff_eq_none.1 (Bool.and_eq_true_iff.1 (h x hx)).2
  rw [h.remarks.tone, htexts]

/-- What a program answers, as a tone, and the speech it leaves. -/
abbrev Voices (p : Step (List Action)) (a : Claude) (Q : Tone → Speech → Prop) : Prop :=
  wp p (fun out b => Q (tone out) b.speech) (fun _ _ => True) a

theorem voices_of_aside {p : Step (List Action)} {Q : Tone → Speech → Prop} (h : Aside p Plain)
    (hQ : Q {} a.speech) : Voices p a Q :=
  wp_mono (h a) (fun out b ⟨hout, hview⟩ => by
    rw [hout.tone, show b.speech = a.speech from congrArg Prod.snd hview]
    exact hQ) fun _ _ _ => trivial

/-- A program that only remarks. -/
theorem voices_of_idle {p : Step (List Action)} {Q : Tone → Speech → Prop} (h : Idle p Remarks)
    (hQ : wp p (fun out b => Q { texts := out.filterMap textOf } b.speech) (fun _ _ => True) a) :
    Voices p a Q :=
  wp_mono (wp_and (h a) hQ) (fun _ _ ⟨⟨hout, _⟩, hq⟩ => by rw [hout.tone]; exact hq) fun _ _ _ => trivial

/-! ## Messages of a child -/

theorem str?_eq_some {v : Json} {text : String} : v.str? = some text ↔ v = .str text := by
  cases v <;> simp [Json.str?]

theorem childDelta_speech (event : Json) (p : String) :
    wp (childDelta event p) (fun out b =>
      (deltaText event = none → out.filterMap textOf = [] ∧ b.speech = a.speech) ∧
      ∀ text, deltaText event = some text →
        if p ∉ a.streamedChildren ∧ (512 ≤ a.streamedChildren.length ∨ a.childStreamOverflow = true) then
          out.filterMap textOf = [] ∧ b.speech = { a.speech with overflow := true }
        else out.filterMap textOf = [(some p, text)] ∧
          b.speech = { a.speech with children := a.streamedChildren.insert p })
      (fun _ _ => True) a := by
  refine wp_bind.2 (wp_current.2 ?_)
  split
  · rename_i text htext
    refine wp_ite.2 ⟨fun hk => ?_, fun hk => ?_⟩
    · have hdelta : deltaText event = some text := by
        rw [deltaText, if_pos hk, htext]
        rfl
      refine wp_ite.2 ⟨fun hskip => ?_, fun hshow => ?_⟩
      · refine wp_bind.2 (wp_update.2 (wp_pure.2 ⟨fun h => ?_, fun text' h => ?_⟩))
        · rw [hdelta] at h
          cases h
        · rw [if_pos hskip]
          exact ⟨rfl, rfl⟩
      · refine wp_bind.2 (wp_update.2 (wp_pure.2 ⟨fun h => ?_, fun text' h => ?_⟩))
        · rw [hdelta] at h
          cases h
        · obtain rfl := Option.some.inj (hdelta.symm.trans h)
          rw [if_neg hshow]
          exact ⟨rfl, rfl⟩
    · have hnone : deltaText event = none := if_neg hk
      exact wp_pure.2 ⟨fun _ => ⟨rfl, rfl⟩, fun text h => by rw [hnone] at h; cases h⟩
  · rename_i hother
    have hnone : deltaText event = none := by
      rw [deltaText]
      split
      · rcases ht : ((event.index "delta").index "text").str? with _ | text
        · rfl
        · exact absurd (str?_eq_some.1 ht) (hother text)
      · rfl
    exact wp_pure.2 ⟨fun _ => ⟨rfl, rfl⟩, fun text h => by rw [hnone] at h; cases h⟩

theorem childBlock_texts (native : Option String) (known streamed : Bool) (p : String) (block : Json) :
    (childBlock native known streamed p block).filterMap textOf =
      if known = true ∧ streamed = false then
        (blockText block).toList.map fun text => (some p, text)
      else [] := by
  rw [childBlock]
  by_cases hk : kind block = "text"
  · have htext : blockText block = (block.index "text").str? := if_pos hk
    rw [htext]
    rcases ht : (block.index "text").str? with _ | text <;> cases known <;> cases streamed <;>
      simp [hk, textOf]
  · have hnone : (if known = true ∧ streamed = false then
        (none : Option String).toList.map fun text => (some p, text) else []) = [] := by split <;> rfl
    rw [if_neg (fun h => hk h.1), blockText, if_neg hk, hnone]
    split
    · split
      · cases known <;> rfl
      · rfl
    · rfl

theorem childBlocks_texts (native : Option String) (known streamed : Bool) (p : String) :
    ∀ blocks : List Json, (blocks.flatMap (childBlock native known streamed p)).filterMap textOf =
      if known = true ∧ streamed = false then
        (blocks.filterMap blockText).map fun text => (some p, text)
      else [] := by
  intro blocks
  induction blocks with
  | nil => simp
  | cons block blocks ih =>
    rw [List.flatMap_cons, List.filterMap_append, childBlock_texts, ih]
    split
    · rcases hb : blockText block with _ | text <;> simp [List.filterMap_cons, hb]
    · rfl

/-- A child whose messages are shown: an agent that is known, or a call that has not ended. -/
def follows (a : Claude) (p : String) : Bool := (a.agentOf p).isSome || p ∈ a.foregroundAgents

theorem childMessage_hears {p : String} (hp : childOf m = some p)
    (hkind : kind m ∈ ["assistant", "stream_event", "user"]) :
    Voices (childMessage m p) a fun t c => a.speech.Hears a.follows (.message (some m)) t c := by
  have haddressed : addressed m = true := by simp [addressed, hp]
  refine voices_of_idle (childMessage_idle m p) (wp_bind.2 (wp_current.2 ?_))
  have hfollows : ((a.agentOf p).isSome || decide (p ∈ a.foregroundAgents)) = a.follows p := rfl
  dsimp only
  rw [hfollows]
  refine wp_ite.2 ⟨fun ⟨hstream, hknown⟩ => ?_, fun hnot => wp_ite.2 ⟨fun hassistant => ?_, fun hna => ?_⟩⟩
  · refine wp_mono (childDelta_speech (m.index "event") p) (fun out b ⟨hnone, hsome⟩ => ?_)
      fun _ _ _ => trivial
    rcases hdelta : deltaText (m.index "event") with _ | text
    · obtain ⟨hout, hb⟩ := hnone hdelta
      rw [hout, hb]
      refine .other (fun s => ?_) .stays
      rw [part_stream hstream, hdelta, ite_self]
    · have hpart : part (some p) m = .delta text := by
        rw [part_stream hstream, if_pos ⟨hp, haddressed⟩, hdelta]
      have hcases := hsome text hdelta
      split at hcases
      · rename_i hskip
        obtain ⟨hout, hb⟩ := hcases
        have hskipped : a.speech.Hears a.follows (.message (some m)) {}
            { a.speech with overflow := a.speech.overflow || a.follows p } := .skipped hpart fun _ => hskip
        rw [hknown, Bool.or_true] at hskipped
        rw [hout, hb]
        exact hskipped
      · rename_i hshow
        obtain ⟨hout, hb⟩ := hcases
        rw [hout, hb]
        exact .childDelta hpart hknown hshow
  · refine wp_bind.2 (wp_update.2 (wp_pure.2 ?_))
    have hpart : part (some p) m = .whole (blockTexts m) := by
      rw [part_assistant hassistant, if_pos hp, if_pos haddressed]
    rw [childBlocks_texts]
    have hiff : (a.follows p = true ∧ decide (p ∈ a.streamedChildren) = false) ↔
        (a.follows p = true ∧ p ∉ a.speech.children) := by
      rw [decide_eq_false_iff_not]
      rfl
    rw [if_congr hiff rfl rfl]
    exact .childWhole hpart
  · have hother : ∀ s, part s m = .other ∨ ∃ text, part (some p) m = .delta text ∧ a.follows p = false := by
      intro s
      simp only [List.mem_cons, List.not_mem_nil, or_false] at hkind
      rcases hkind with hk | hstream | hk
      · exact absurd hk hna
      · have hunknown : a.follows p = false := by simpa using fun h => hnot ⟨hstream, h⟩
        rcases hdelta : deltaText (m.index "event") with _ | text
        · exact .inl (by rw [part_stream hstream, hdelta, ite_self])
        · exact .inr ⟨text, by rw [part_stream hstream, if_pos ⟨hp, haddressed⟩, hdelta], hunknown⟩
      · left
        rw [part_rest (by rw [hk]; decide) (by rw [hk]; decide) (by rw [hk]; decide)]
        simp [acknowledges, hk]
    have hears : a.speech.Hears a.follows (.message (some m)) {} a.speech := by
      by_cases hdelta : ∃ text, part (some p) m = .delta text ∧ a.follows p = false
      · obtain ⟨text, hpart, hunknown⟩ := hdelta
        have hskipped : a.speech.Hears a.follows (.message (some m)) {}
            { a.speech with overflow := a.speech.overflow || a.follows p } :=
          .skipped hpart fun h => by rw [hunknown] at h; cases h
        rwa [hunknown, Bool.or_false] at hskipped
      · exact .other (fun s => (hother s).resolve_right hdelta) .stays
    refine wp_ite.2 ⟨fun _ => wp_pure.2 ?_, fun _ => wp_pure.2 hears⟩
    rw [(List.filterMap_eq_nil_iff (f := textOf)).2 fun x hx => ?_]
    · exact hears
    · obtain ⟨block, -, hx⟩ := List.mem_filterMap.1 hx
      split at hx
      · obtain ⟨id, -, rfl⟩ := Option.map_eq_some_iff.1 hx
        rfl
      · cases hx

/-! ## Messages of the turn -/

variable {c : Speech} {started : Bool} {f : String → Bool}

theorem tone_append : tone (out ++ more) = {
    texts := (tone out).texts ++ (tone more).texts
    started := (tone out).started || (tone more).started
    finished := (tone out).finished || (tone more).finished } := by
  simp [tone]

/-- A message that says nothing. -/
theorem hears_quiet (hs : kind m ≠ "stream_event") (ha : kind m ≠ "assistant") (hr : kind m ≠ "result")
    (hidle : c.phase ≠ .idle) : c.Hears f (.message (some m)) {} c := by
  by_cases hack : acknowledges m = true
  · exact .over (by rw [part_rest hs ha hr, if_pos ⟨hack, rfl⟩]) hidle
  · exact .other (fun s => by rw [part_rest hs ha hr, if_neg fun h => hack h.1]) .stays

theorem streamText_speech (event : Json) :
    wp (streamText event) (fun out b => ∀ text?, deltaText event = text? →
      out.filterMap textOf = text?.toList.map (fun text => (none, text)) ∧
      b.speech = { a.speech with
        streamed := a.streamed || text?.isSome, emitted := a.emittedText || text?.isSome })
      (fun _ _ => True) a := by
  unfold streamText
  split
  · rename_i text htext
    refine wp_ite.2 ⟨fun hk => ?_, fun hk => ?_⟩
    · have hdelta : deltaText event = some text := by
        rw [deltaText, if_pos hk, htext]
        rfl
      refine wp_bind.2 (wp_update.2 (wp_pure.2 ?_))
      rintro _ rfl
      rw [hdelta, Option.isSome_some, Bool.or_true, Bool.or_true]
      exact ⟨rfl, rfl⟩
    · refine wp_pure.2 ?_
      rintro _ rfl
      rw [deltaText, if_neg hk, Option.isSome_none, Bool.or_false, Bool.or_false]
      exact ⟨rfl, rfl⟩
  · rename_i hother
    have hnone : deltaText event = none := by
      rw [deltaText]
      split
      · rcases ht : ((event.index "delta").index "text").str? with _ | text
        · rfl
        · exact absurd (str?_eq_some.1 ht) (hother text)
      · rfl
    refine wp_pure.2 ?_
    rintro _ rfl
    rw [hnone, Option.isSome_none, Bool.or_false, Bool.or_false]
    exact ⟨rfl, rfl⟩

theorem streamEvent_hears (hk : kind m = "stream_event") (hchild : childOf m = none)
    (henter : c.Enters started a.speech) (hidle : a.phase ≠ .idle)
    (hphase : shows m = true → a.phase ≠ .betweenTurns) :
    Voices (streamEvent m) a fun t d => c.Hears f (.message (some m)) { t with started } d := by
  refine voices_of_idle (streamEvent_idle m) (wp_ite.2 ⟨fun hnull => wp_bind.2 ?_, fun hnull => ?_⟩)
  · refine wp_mono (streamCounters_aside _ a) (fun counters b ⟨hcounters, hb⟩ => wp_bind.2 ?_)
      fun _ _ _ => trivial
    refine wp_mono (streamProgress_aside _ b) (fun progress b' ⟨hprogress, hb'⟩ => wp_bind.2 ?_)
      fun _ _ _ => trivial
    have hspeech : b'.speech = a.speech := congrArg Prod.snd (hb'.trans hb)
    refine wp_mono (streamText_speech _) (fun text e htext => wp_pure.2 ?_) fun _ _ _ => trivial
    obtain ⟨hout, he⟩ := htext _ rfl
    have hnil : (counters ++ progress ++ text).filterMap textOf = text.filterMap textOf := by
      have h₁ : counters.filterMap textOf = [] := congrArg Tone.texts hcounters.tone
      have h₂ : progress.filterMap textOf = [] := congrArg Tone.texts hprogress.tone
      rw [List.filterMap_append, List.filterMap_append, h₁, h₂]
      rfl
    have hstreamed : b'.streamed = a.streamed := congrArg Speech.streamed hspeech
    have hemitted : b'.emittedText = a.emittedText := congrArg Speech.emitted hspeech
    have hpart (s : Option String) : part s m =
        if none = s then
          match deltaText (m.index "event") with
          | some text => .delta text
          | none => .other
        else .other := by
      rw [part_stream hk, hchild]
      simp [addressed, hnull]
    rw [hnil, hout, he, hspeech, hstreamed, hemitted]
    rcases hdelta : deltaText (m.index "event") with _ | text
    · rw [Option.isSome_none, Bool.or_false, Bool.or_false]
      refine .other (fun s => ?_) henter
      rw [hpart, hdelta]
      exact ite_self _
    · rw [Option.isSome_some, Bool.or_true, Bool.or_true]
      refine .delta ?_ henter (hphase ?_) hidle
      · rw [hpart, if_pos rfl, hdelta]
      · rw [deltaText] at hdelta
        split at hdelta
        · rename_i h
          simp [shows, hnull, hk, h.1]
        · cases hdelta
  · have hother (s : Option String) : part s m = .other := by
      rw [part_stream hk, if_neg]
      simp [addressed, hchild, hnull]
    exact wp_pure.2 (.other hother henter)

theorem assistantBlock_speech (top : Bool) (block : Json) :
    wp (assistantBlock top block) (fun out b =>
      out.filterMap textOf =
        (if top = true ∧ a.streamed = false then (blockText block).toList else []).map
          (fun text => (none, text)) ∧
      b.speech = { a.speech with
        emitted := a.emittedText || (top && !a.streamed && (blockText block).isSome) })
      (fun _ _ => True) a := by
  refine wp_bind.2 (wp_current.2 (wp_ite.2 ⟨fun ⟨hk, hstreamed, htop⟩ => ?_, fun hnot => ?_⟩))
  · have hstreamed : a.streamed = false := by simpa using hstreamed
    have htext : blockText block = (block.index "text").str? := if_pos hk
    rw [if_pos ⟨htop, hstreamed⟩, htop, hstreamed, htext]
    split
    · rename_i text hsome
      refine wp_bind.2 (wp_update.2 (wp_pure.2 ?_))
      rw [hsome, Option.isSome_some]
      refine ⟨rfl, ?_⟩
      rw [Bool.not_false, Bool.and_true, Bool.and_true, Bool.or_true]
      rfl
    · rename_i hnone
      rw [hnone]
      refine wp_pure.2 ⟨rfl, ?_⟩
      rw [Option.isSome_none, Bool.and_false, Bool.or_false]
      rfl
  · have hnil : (if top = true ∧ a.streamed = false then (blockText block).toList else []) = [] := by
      split
      · rename_i h
        rw [blockText, if_neg fun hk => hnot ⟨hk, by simp [h.2], h.1⟩]
        rfl
      · rfl
    have hsame : (a.emittedText || (top && !a.streamed && (blockText block).isSome)) = a.emittedText := by
      by_cases hk : kind block = "text"
      · have htop : (top && !a.streamed) = false := by
          by_contra h
          simp only [Bool.not_eq_false, Bool.and_eq_true, Bool.not_eq_true'] at h
          exact hnot ⟨hk, by simp [h.2], h.1⟩
        rw [htop, Bool.false_and, Bool.or_false]
      · rw [blockText, if_neg hk, Option.isSome_none, Bool.and_false, Bool.or_false]
    rw [hnil, hsame]
    refine wp_ite.2 ⟨fun _ => wp_bind.2 (wp_update.2 (wp_bind.2 ?_)), fun _ => wp_pure.2 ⟨rfl, rfl⟩⟩
    have haside : Aside (if (block.index "name").str? ∈ [some "Agent", some "Task"] ∧ top = true then agentStarted block else pure []) Plain :=
      .ite (agentStarted_aside block) (.pure plain_nil)
    refine wp_mono (haside _) (fun started b ⟨hout, hb⟩ => wp_pure.2 ⟨?_, ?_⟩) fun _ _ _ => trivial
    · rw [List.filterMap_append, show started.filterMap textOf = [] from congrArg Tone.texts hout.tone]
      rfl
    · exact congrArg Prod.snd hb

theorem assistantBlocks_speech (top : Bool) : ∀ (blocks : List Json) (a : Claude),
    wp (gather (assistantBlock top) blocks) (fun out b =>
      out.filterMap textOf =
        (if top = true ∧ a.streamed = false then blocks.filterMap blockText else []).map
          (fun text => (none, text)) ∧
      b.speech = { a.speech with
        emitted := a.emittedText || (top && !a.streamed && !(blocks.filterMap blockText).isEmpty) })
      (fun _ _ => True) a
  | [], a => by
    refine wp_pure.2 ⟨by simp, ?_⟩
    simp [speech]
  | block :: blocks, a => by
    refine wp_bind.2 (wp_mono (assistantBlock_speech top block) (fun out b ⟨hout, hb⟩ => wp_bind.2 ?_)
      fun _ _ _ => trivial)
    refine wp_mono (assistantBlocks_speech top blocks b) (fun more d ⟨hmore, hd⟩ => wp_pure.2 ?_)
      fun _ _ _ => trivial
    have hstreamed : b.streamed = a.streamed := congrArg Speech.streamed hb
    have hemitted := congrArg Speech.emitted hb
    change b.emittedText = _ at hemitted
    rw [hstreamed] at hmore hd
    rw [hemitted, hb] at hd
    refine ⟨?_, ?_⟩
    · rw [List.filterMap_append, hout, hmore, ← List.map_append, List.filterMap_cons]
      split
      · rcases hblock : blockText block <;> simp
      · rfl
    · rw [hd, List.filterMap_cons]
      rcases hblock : blockText block with _ | text
      · simp
      · cases a.emittedText <;> cases top <;> cases a.streamed <;> rfl

theorem assistant_hears (hk : kind m = "assistant") (hchild : childOf m = none)
    (henter : c.Enters started a.speech) (hidle : a.phase ≠ .idle) :
    Voices (assistant m) a fun t d => c.Hears f (.message (some m)) { t with started } d := by
  have hmodel {f : Claude → Claude} (hf : ∀ b, (f b).speech = b.speech) :
      Leaves speech (show Step Unit from update f) fun _ => True := .update hf
  refine voices_of_idle (assistant_idle m) (wp_bind.2 (wp_current.2 (wp_bind.2 ?_)))
  refine wp_mono (hmodel (fun b => ?_) a) (fun _ b h => ?_) fun _ _ _ => trivial
  · split
    · exact speech_updateContext
    · rfl
  have hspeech := h.2
  refine wp_bind.2 (wp_current.2 (wp_bind.2 ?_))
  refine wp_mono (assistantBlocks_speech _ _ b) (fun blocks d h => ?_) fun _ _ _ => trivial
  obtain ⟨hout, hd⟩ := h
  refine wp_bind.2 (wp_update.2 (wp_pure.2 ?_))
  have hpart : part none m =
      .whole (if (m.index "parent_tool_use_id").isNull then blockTexts m else []) := by
    rw [part_assistant hk, if_pos hchild]
    simp [addressed, hchild]
  have hwhole : c.Hears f _ _ _ := .whole hpart henter hidle
  have hstreamed : b.streamed = a.speech.streamed := congrArg Speech.streamed hspeech
  have hemitted : b.emittedText = a.speech.emitted := congrArg Speech.emitted hspeech
  have hafter : ({ d with streamed := false } : Claude).speech = { d.speech with streamed := false } := rfl
  have htexts : ((if b.context = a.context then [] else
      [Action.event { event := .usage b.context none }]) ++ blocks).filterMap textOf =
      blocks.filterMap textOf := by
    rw [List.filterMap_append]
    split <;> rfl
  rw [htexts, hafter, hd, hout, hspeech, hstreamed, hemitted]
  rcases hnull : (m.index "parent_tool_use_id").isNull <;> rcases hs : a.speech.streamed <;>
    simpa [hnull, hs, blockTexts] using hwhole

/-! ## Answers and results -/

theorem opened_hears {waiting : Option String} {catalog : Json} (hpart : part none m = .over) :
    Voices (opened waiting catalog) a fun t d => a.speech.Hears f (.message (some m)) t d := by
  have hcatalog : Leaves speech (show Step Unit from when (waiting.any startsCommand) do
      let commands ← lift (parseCommands catalog)
      update fun a : Claude => { a with commands := commands.map (·.name) ∪ a.commands }) fun _ => True :=
    .when (.bind .lift fun _ _ => .update fun _ => rfl)
  refine wp_bind.2 (wp_update.2 (wp_bind.2 ?_))
  refine wp_mono (hcatalog _) (fun _ b ⟨_, hb⟩ => wp_bind.2 (wp_update.2 ?_)) fun _ _ _ => trivial
  have hb : b.speech = { a.speech with phase := .running } := hb
  rcases waiting with _ | text
  · refine wp_bind.2 (wp_update.2 (wp_pure.2 ?_))
    show a.speech.Hears f _ {} { b.speech with phase := .betweenTurns }
    rw [hb]
    exact .over hpart (by simp)
  · refine wp_bind.2 (checkCommand_spec (wp_pure.2 ?_) fun _ => trivial)
    show a.speech.Hears f _ {} b.speech
    rw [hb]
    exact .over hpart (by simp)

theorem initAnswered_hears (hk : kind m = "control_response") (hidle : a.phase ≠ .idle)
    (hid : ((m.index "response").index "request_id").str? = some "latte-init") :
    Voices (initAnswered m) a fun t d => a.speech.Hears f (.message (some m)) t d := by
  have hquiet : a.speech.Hears f (.message (some m)) {} a.speech :=
    hears_quiet (by rw [hk]; decide) (by rw [hk]; decide) (by rw [hk]; decide) hidle
  refine wp_bind.2 (wp_current.2 (wp_bind.2 (wp_bailIf.2 ⟨fun _ => trivial, fun hsuccess => ?_⟩)))
  rw [not_not] at hsuccess
  have hpart : part none m = .over := by
    rw [part_rest (by rw [hk]; decide) (by rw [hk]; decide) (by rw [hk]; decide)]
    simp [acknowledges, hk, hid, hsuccess]
  split
  · refine wp_bind.2 (wp_lift.2 ⟨fun commands _ => wp_bind.2 (wp_update.2 (wp_pure.2 ?_)), fun _ _ =>
      trivial⟩)
    exact .over hpart (by simp)
  · exact opened_hears hpart
  · exact opened_hears hpart
  · exact wp_pure.2 hquiet

theorem childResult_hears {p : String} (hpart : part (some p) m = .over) :
    Voices (childResult m p) a fun t d => a.speech.Hears f (.message (some m)) t d := by
  have hover : a.speech.Hears f (.message (some m)) {} _ := .childOver hpart
  refine wp_bind.2 (wp_update.2 (wp_bind.2 (wp_current.2 (wp_ite.2 ⟨fun _ => ?_, fun _ => ?_⟩))))
  · exact wp_bind.2 (wp_update.2 (wp_pure.2 hover))
  · exact wp_pure.2 hover

theorem finish_hears (hpart : part none m = .over) (henter : c.Enters started a.speech) :
    Voices (finish m) a fun t d => t.started = false ∧
      c.Hears f (.message (some m)) { t with started } d := by
  refine wp_bind.2 (wp_update.2 (wp_bind.2 (wp_update.2 (wp_bind.2 (wp_current.2 (wp_bind.2 ?_))))))
  generalize hb : accountWindow _ _ = b
  have hspeech : b.speech = { a.speech with phase := .betweenTurns } := by
    rw [← hb, accountWindow]
    split <;> rfl
  have htitle : Aside (if failed m = true then pure [] else requestTitle) Plain :=
    .ite (.pure plain_nil) requestTitle_aside
  refine wp_mono (htitle b) (fun titled d h => wp_bind.2 (wp_update.2 (wp_pure.2 ?_)))
    fun _ _ _ => trivial
  obtain ⟨hout, hd⟩ := h
  have hd : d.speech = b.speech := congrArg Prod.snd hd
  have hemitted : b.emittedText = a.speech.emitted := congrArg Speech.emitted hspeech
  have husage : Plain (if b.context.isSome ∨ (m.index "usage").obj?.isSome then
      [.event { event := .usage b.context (some (turnUsage m)) }] else []) := by
    split
    · exact plain_single rfl
    · exact plain_nil
  have htext : Remarks (b.resultText m) ∧ (b.resultText m).filterMap textOf =
      if failed m ∨ a.speech.emitted then [] else
        ((m.index "result").str?.filter (· ≠ "")).toList.map fun text => (none, text) := by
    rw [resultText, hemitted]
    split
    · exact ⟨remarks_nil, rfl⟩
    · rcases (m.index "result").str?.filter (· ≠ "") with _ | text
      · exact ⟨remarks_nil, rfl⟩
      · exact ⟨remarks_single rfl, rfl⟩
  have htone {usage : List Action} (husage : Plain usage) (message : Option String) :
      tone (usage ++ b.resultText m ++ titled ++ [.finished (failed m) message]) =
      { texts := if failed m ∨ a.speech.emitted then [] else
          ((m.index "result").str?.filter (· ≠ "")).toList.map fun text => (none, text)
        finished := true } := by
    rw [tone_append, tone_append, tone_append, husage.tone, htext.1.tone, htext.2, hout.tone]
    simp [tone, textOf, Action.isFinished, Action.isTurnStarted]
  have hafter : ({ d with lastResult := (m.index "result").str? } : Claude).speech = d.speech := rfl
  rw [htone husage, hafter, hd, hspeech]
  exact ⟨rfl, .result hpart henter⟩

theorem report_tone (c : Turns) : tone c.report = {} := by
  rw [Turns.report]
  split <;> rfl

theorem turnResult_hears (hpart : part none m = .over) (hidle : a.phase ≠ .idle) :
    Voices (turnResult m) a fun t d => a.speech.Hears f (.message (some m)) t d := by
  refine wp_bind.2 (settle_spec (wp_bind.2 (wp_current.2 (wp_ite.2 ⟨fun _ => ?_, fun _ => ?_⟩))))
  · refine wp_pure.2 ?_
    rw [report_tone]
    exact .over hpart hidle
  · generalize hs : ({ a with queuedInputs := _, consumedInputs := [] } : Claude) = s
    have hspeech : s.speech = a.speech := by
      rw [← hs]
      rfl
    have hended {b : Claude} {started : Bool} {front : List Action} (hfront : tone front = { started })
        (henter : a.speech.Enters started b.speech) : Voices (do
          let ended ← finish m
          pure (a.turns.report ++ front ++ ended)) b fun t d =>
            a.speech.Hears f (.message (some m)) t d := by
      refine wp_bind.2 (wp_mono (finish_hears (f := f) hpart henter) (fun ended d ⟨hstarted, h⟩ => wp_pure.2 ?_)
        fun _ _ _ => trivial)
      rw [tone_append, tone_append, report_tone, hfront, hstarted]
      simpa using h
    refine wp_bind.2 (wp_ite.2 ⟨fun hp => ?_, fun hp => wp_pure.2 ?_⟩)
    · have hphase : a.speech.phase = .betweenTurns := by
        rw [← hspeech]
        exact hp
      refine wp_bind.2 (wp_update.2 (wp_pure.2 (wp_bind.2 (wp_current.2 (wp_bind.2 (wp_bailIf.2
        ⟨fun _ => trivial, fun _ => hended rfl ?_⟩))))))
      rw [← hspeech] at hphase ⊢
      exact .starts hphase
    · refine wp_bind.2 (wp_current.2 (wp_bind.2 (wp_bailIf.2 ⟨fun _ => trivial, fun _ => hended rfl ?_⟩)))
      rw [hspeech]
      exact .stays

/-! ## Every input -/

/-- The texts of the turn, in a turn that a message starts or finds. -/
theorem decodeTurn_shown (hk : kind m = "assistant" ∨ kind m = "stream_event") (hchild : childOf m = none)
    (henter : c.Enters started a.speech) (hidle : a.phase ≠ .idle)
    (hphase : shows m = true → a.phase ≠ .betweenTurns) :
    Voices (decodeTurn m) a fun t d => c.Hears f (.message (some m)) { t with started } d := by
  have hcontrol : kind m ≠ "control_response" := by rcases hk with h | h <;> rw [h] <;> decide
  have hsystem : kind m ≠ "system" := by rcases hk with h | h <;> rw [h] <;> decide
  refine wp_bind.2 (wp_current.2 ?_)
  rw [if_neg fun hc => hcontrol hc.1]
  split
  · rename_i h
    have := (Option.filter_eq_some_iff.1 h).2
    rw [decide_eq_true_eq] at this
    exact absurd this.1 hcontrol
  rw [if_neg fun hc => hsystem hc.1.1, if_neg fun hc => hsystem hc.1.1, dispatch, if_neg hcontrol,
    if_neg hsystem]
  rcases hk with h | h
  · rw [if_neg (by rw [h]; decide), if_neg (by rw [h]; decide), if_neg (by rw [h]; decide), if_pos h]
    exact assistant_hears h hchild henter hidle
  · rw [if_neg (by rw [h]; decide), if_neg (by rw [h]; decide), if_pos h]
    exact streamEvent_hears h hchild henter hidle hphase

/-- The other messages of the turn. -/
theorem decodeTurn_rest (ha : kind m ≠ "assistant") (hs : kind m ≠ "stream_event")
    (hidle : a.phase ≠ .idle) :
    Voices (decodeTurn m) a fun t d => a.speech.Hears f (.message (some m)) t d := by
  have haside {p : Step (List Action)} (hr : kind m ≠ "result") (hp : Aside p Plain) :
      Voices p a fun t d => a.speech.Hears f (.message (some m)) t d :=
    voices_of_aside hp (hears_quiet hs ha hr hidle)
  have hcontrol (h : kind m = "control_response") : kind m ≠ "result" := by rw [h]; decide
  have hsystem (h : kind m = "system") : kind m ≠ "result" := by rw [h]; decide
  refine wp_bind.2 (wp_current.2 (wp_ite.2 ⟨fun h => haside (hcontrol h.1) (titleGenerated_aside m),
    fun _ => ?_⟩))
  split
  · rename_i h
    have := (Option.filter_eq_some_iff.1 h).2
    rw [decide_eq_true_eq] at this
    exact haside (hcontrol this.1) (renamed_aside _ _)
  refine wp_ite.2 ⟨fun h => haside (hsystem h.1.1) (.pure plain_nil), fun _ => wp_ite.2
    ⟨fun h => haside (hsystem h.1.1) (titleChanged_aside m), fun _ => ?_⟩⟩
  refine wp_ite.2 ⟨fun h => ?_, fun _ => wp_ite.2 ⟨fun h => haside (hsystem h) ?_, fun _ => ?_⟩⟩
  · refine wp_ite.2 ⟨fun _ => haside (hcontrol h) ?_, fun _ => wp_ite.2 ⟨fun hid => ?_, fun _ => ?_⟩⟩
    · exact .bind .bailIf fun _ _ => .pure (plain_single rfl)
    · exact initAnswered_hears h hidle hid
    · exact haside (hcontrol h) (.pure plain_nil)
  · refine .ite (systemInit_aside m) (.ite ?_ (.ite (taskStarted_aside m) (.ite (taskChanged_aside m)
      (.ite forgetContext_aside (.pure plain_nil)))))
    exact .bind (.update fun _ => rfl) fun _ _ => .pure plain_nil
  · refine wp_ite.2 ⟨fun h => haside (by rw [h]; decide) forgetContext_aside, fun _ => wp_ite.2
      ⟨fun h => haside (by rw [h]; decide) (nativeRequest_aside m), fun _ => ?_⟩⟩
    rw [if_neg hs, if_neg ha]
    refine wp_ite.2 ⟨fun h => haside (by rw [h]; decide) (user_aside m), fun _ => wp_ite.2
      ⟨fun h => ?_, fun h => haside h (.pure plain_nil)⟩⟩
    rw [result]
    rcases hchild : resultChild m with _ | p
    · exact turnResult_hears (by rw [part_result h, if_pos hchild]) hidle
    · exact childResult_hears (by rw [part_result h, if_pos hchild])

theorem decode_hears (hidle : a.phase ≠ .idle) :
    Voices (decode m) a fun t d => a.speech.Hears a.follows (.message (some m)) t d := by
  rw [decode]
  split
  · rename_i p hp
    obtain ⟨hp, hkind⟩ := Option.filter_eq_some_iff.1 hp
    exact childMessage_hears hp (by simpa using hkind)
  · rename_i hnone
    have hchild (h : kind m = "assistant" ∨ kind m = "stream_event") : childOf m = none := by
      rcases hp : childOf m with _ | p
      · rfl
      · have := Option.filter_eq_none_iff.1 hnone p hp
        rcases h with h | h <;> simp [h] at this
    have hfront {b : Claude} {started : Bool} {front : List Action} (hb : a.speech.Enters started b.speech)
        (hfront : tone front = { started }) (hbidle : b.phase ≠ .idle)
        (hphase : shows m = true → b.phase ≠ .betweenTurns)
        (hk : kind m = "assistant" ∨ kind m = "stream_event") : Voices (do
          let output ← decodeTurn m
          pure (front ++ output)) b fun t d => a.speech.Hears a.follows (.message (some m)) t d := by
      refine wp_bind.2 (wp_mono (wp_and (decodeTurn_idle hk b)
        (decodeTurn_shown (f := a.follows) hk (hchild hk) hb hbidle hphase))
        (fun out d h => wp_pure.2 ?_) fun _ _ _ => trivial)
      obtain ⟨⟨hout, -⟩, h⟩ := h
      rw [tone_append, hfront, hout.tone]
      rw [hout.tone] at h
      simpa using h
    refine wp_bind.2 (wp_update.2 (wp_bind.2 (wp_current.2 (wp_bind.2 (wp_ite.2 ⟨?_, fun hrevive => ?_⟩)))))
    · rintro ⟨hp, hshows⟩
      refine wp_bind.2 (wp_update.2 (wp_pure.2 (hfront ?_ rfl (by simp) (by simp) (kind_of_shows hshows).2)))
      exact .starts hp
    · refine wp_pure.2 ?_
      by_cases hk : kind m = "assistant" ∨ kind m = "stream_event"
      · exact hfront .stays rfl hidle (fun hshows hp => hrevive ⟨hp, hshows⟩) hk
      · rw [not_or] at hk
        exact wp_bind.2 (wp_mono (decodeTurn_rest hk.1 hk.2 hidle) (fun _ _ h => wp_pure.2 h)
          fun _ _ _ => trivial)

theorem speech_rememberSkillCommand {text : String} :
    (a.rememberSkillCommand text).speech = a.speech := by
  rw [rememberSkillCommand]
  split <;> rfl

theorem speech_rememberTitleDescription {text : String} :
    (a.rememberTitleDescription text).speech = a.speech := by
  rw [rememberTitleDescription]
  split <;> rfl

/-- Every accepted input is heard. -/
theorem advance_hears {i : Input} :
    Voices (advance i) a fun t d => a.speech.Hears a.follows i t d := by
  cases i with
  | renameTitle id title =>
    refine wp_bind.2 (wp_current.2 (wp_bind.2 (wp_bailIf.2 ⟨fun _ => trivial, fun _ => wp_bind.2 ?_⟩)))
    refine wp_bailIf.2 ⟨fun _ => trivial, fun _ => wp_bind.2 (wp_update.2 (wp_pure.2 ?_))⟩
    exact .aside (by simp) rfl
  | «open» =>
    refine wp_bind.2 (wp_current.2 (wp_bind.2 (wp_bailIf.2 ⟨fun _ => trivial, fun hp => ?_⟩)))
    rw [not_not] at hp
    exact wp_bind.2 (wp_update.2 (wp_pure.2 (.«open» hp (by simp) rfl)))
  | interrupt =>
    refine wp_bind.2 (wp_current.2 (wp_ite.2 ⟨fun _ => ?_, fun _ => ?_⟩))
    · exact wp_pure.2 (.aside (by simp) rfl)
    · exact wp_pure.2 (.aside (by simp) rfl)
  | discoverCommands =>
    refine wp_bind.2 (wp_current.2 (wp_bind.2 (wp_bailIf.2 ⟨fun _ => trivial, fun hp => ?_⟩)))
    rw [not_not] at hp
    exact wp_bind.2 (wp_update.2 (wp_pure.2 (.«open» hp (by simp) rfl)))
  | queue r text uuid =>
    refine wp_bind.2 (wp_current.2 (wp_bind.2 (wp_bailIf.2 ⟨fun _ => trivial, fun _ => wp_bind.2 ?_⟩)))
    refine checkCommand_spec (wp_bind.2 (wp_bailIf.2 ⟨fun _ => trivial, fun _ => ?_⟩)) fun _ => trivial
    refine wp_bind.2 (wp_update.2 (wp_bind.2 (wp_update.2 (wp_pure.2 ?_))))
    rw [speech_rememberSkillCommand]
    exact .aside (by simp) rfl
  | start text =>
    refine wp_bind.2 (wp_current.2 (wp_ite.2 ⟨fun hp => wp_bind.2 ?_, fun _ => ?_⟩))
    · refine checkCommand_spec (wp_bind.2 (wp_update.2 (wp_bind.2 (wp_update.2 (wp_pure.2 ?_)))))
        fun _ => trivial
      show a.speech.Hears _ _ {}
        { ((a.rememberTitleDescription text).resetTurn.rememberSkillCommand text).speech with
          phase := .running }
      have hreset (b : Claude) (hb : b.speech = a.speech) : ∃ lift, b.resetTurn.speech = { a.speech with
          streamed := false, emitted := false, overflow := a.speech.overflow && lift } := by
        rw [← hb]
        exact ⟨_, rfl⟩
      obtain ⟨lift, hlift⟩ := hreset (a.rememberTitleDescription text) speech_rememberTitleDescription
      rw [speech_rememberSkillCommand, hlift]
      exact .start hp
    · refine wp_bind.2 (wp_bailIf.2 ⟨fun _ => trivial, fun hp => wp_bind.2 (wp_update.2 (wp_pure.2 ?_))⟩)
      rw [not_not] at hp
      show a.speech.Hears _ _ {}
        { ((a.rememberTitleDescription text).rememberSkillCommand text).speech with
          phase := .initializing text }
      rw [speech_rememberSkillCommand, speech_rememberTitleDescription]
      exact .first hp
  | message line =>
    refine wp_bind.2 (wp_current.2 (wp_bind.2 (wp_bailIf.2 ⟨fun _ => trivial, fun hp => ?_⟩)))
    refine wp_bind.2 (wp_orError.2 ⟨fun m hm => ?_, fun _ => trivial⟩)
    rw [hm]
    exact decode_hears fun hidle => hp (.inl hidle)
  | approval id input allow =>
    refine wp_bind.2 (wp_current.2 (wp_bind.2 (wp_bailIf.2 ⟨fun _ => trivial, fun _ => wp_pure.2 ?_⟩)))
    exact .aside (by simp) rfl
  | questionAnswer id input questions answers =>
    refine wp_bind.2 (wp_current.2 (wp_bind.2 (wp_bailIf.2 ⟨fun _ => trivial, fun _ => wp_bind.2 ?_⟩)))
    exact wp_lift.2 ⟨fun _ _ => wp_pure.2 (.aside (by simp) rfl), fun _ _ => trivial⟩

/-! ## A session -/

/-- The characters of texts one after the other. -/
def said (texts : List String) : List Char := texts.flatMap String.toList

/-- The texts of one stream. -/
def ofStream (s : Option String) (texts : List (Option String × String)) : List String :=
  texts.filterMap fun p => if p.1 = s then some p.2 else none

/-- What a session shows of a stream. -/
def shown (s : Option String) (log : Log) : List String :=
  log.flatMap fun e => ofStream s (tone e.2).texts

/-- What was said in a stream: the texts of its messages, what was streamed of one that is not whole
yet, and whether the turn has text. -/
structure Telling where
  texts : List String := []
  pending : List String := []
  spoke : Bool := false

/-- The text of a result. -/
def resultTexts (m : Json) : List String := ((m.index "result").str?.filter (· ≠ "")).toList

namespace Telling

/-- `last` is the text of a result that ends a turn without any. -/
def hear (t : Telling) (spoke : Bool) (last : List String) : Part → Telling
  | .delta text => { t with pending := t.pending ++ [text], spoke := true }
  | .whole texts => { texts := t.texts ++ texts, pending := [], spoke := spoke || !texts.isEmpty }
  | .over => { t with texts := t.texts ++ last, spoke }
  | .other => { t with spoke }

def listen (s : Option String) (t : Telling) (i : Input) (w : Tone) : Telling :=
  let spoke := t.spoke && !((startOf i).isSome || w.started)
  match messageOf i with
  | some m =>
    t.hear spoke (if s = none ∧ w.finished ∧ ¬(failed m ∨ spoke) then resultTexts m else []) (part s m)
  | none => { t with spoke }

def next (s : Option String) (t : Telling) (e : Input × List Action) : Telling :=
  t.listen s e.1 (tone e.2)

/-- What is streamed of a message is all of its text, and the message is what comes next. -/
def admits (t : Telling) : Part → Bool
  | .whole texts => t.pending.isEmpty || said t.pending = said texts
  | .over => t.pending.isEmpty
  | _ => true

end Telling

/-- What was said in a stream of a session. -/
def told (s : Option String) (log : Log) : Telling := Runs.run (Telling.next s) {} log

/-- The texts that are streamed in a stream directly precede their messages. -/
def Orderly (s : Option String) (log : Log) : Prop :=
  Runs.Throughout (Telling.next s)
    (fun t e => (messageOf e.1).all (fun m => t.admits (part s m)) = true) {} log

instance (s : Option String) (log : Log) : Decidable (Orderly s log) :=
  inferInstanceAs (Decidable (Runs.Throughout ..))

theorem said_append (texts more : List String) : said (texts ++ more) = said texts ++ said more :=
  List.flatMap_append

theorem ofStream_own (s : Option String) (texts : List String) :
    ofStream s (texts.map fun text => (s, text)) = texts := by
  simp [ofStream, List.filterMap_map, Function.comp_def]

theorem ofStream_other {s t : Option String} (h : t ≠ s) (texts : List String) :
    ofStream s (texts.map fun text => (t, text)) = [] := by
  simp [ofStream, List.filterMap_map, Function.comp_def, h]

theorem messageOf_none {i : Input} (h : ∀ line, i ≠ .message line) : messageOf i = none := by
  cases i with
  | message line => exact absurd rfl (h line)
  | _ => rfl

variable {t : Telling} {i : Input} {w : Tone} {c' : Speech}

theorem listen_silent {s : Option String} (h : messageOf i = none) : t.listen s i w =
    { t with spoke := t.spoke && !((startOf i).isSome || w.started) } := by
  simp only [Telling.listen, h]

theorem listen_other {s : Option String} (h : part s m = .other) : t.listen s (.message (some m)) w =
    { t with spoke := t.spoke && !w.started } := by
  simp [Telling.listen, messageOf, startOf, h, Telling.hear]

/-- The turn agrees with what was said in it. -/
structure Speech.Agrees (c : Speech) (t : Telling) : Prop where
  streamed : c.streamed = !t.pending.isEmpty
  emitted : c.emitted = t.spoke
  phase : t.pending ≠ [] → c.phase ≠ .betweenTurns
  spoken : t.pending ≠ [] → t.spoke = true
  idle : c.phase = .idle → t.pending = [] ∧ t.spoke = false

theorem Speech.Agrees.enters {d : Speech} (h : c.Agrees t) (he : c.Enters started d) :
    d.Agrees { t with spoke := t.spoke && !started } := by
  cases he with
  | stays =>
    refine ⟨h.streamed, ?_, h.phase, fun hne => ?_, fun hp => ?_⟩
    · rw [h.emitted, Bool.not_false, Bool.and_true]
    · rw [h.spoken hne, Bool.not_false, Bool.and_true]
    · exact ⟨(h.idle hp).1, by rw [(h.idle hp).2, Bool.false_and]⟩
  | starts hp =>
    have hpending : t.pending = [] := by
      by_contra hne
      exact h.phase hne hp
    refine ⟨by rw [hpending]; rfl, (Bool.and_false _).symm, fun hne => absurd hpending hne,
      fun hne => absurd hpending hne, fun hp => ?_⟩
    cases hp

/-- What one input shows of the turn is what was said in it. -/
theorem Speech.Hears.turn (hh : c.Hears f i w c') (h : c.Agrees t)
    (hfits : ∀ m, messageOf i = some m → t.admits (part none m) = true) :
    c'.Agrees (t.listen none i w) ∧
      said t.texts ++ said t.pending ++ said (ofStream none w.texts) =
        said (t.listen none i w).texts ++ said (t.listen none i w).pending := by
  have hchild {m : Json} {p : String} (hpart : part (some p) m ≠ .other) {w : Tone}
      (hw : w.started = false) (htexts : ofStream none w.texts = []) {d : Speech}
      (hd : d.Agrees t) : d.Agrees (t.listen none (.message (some m)) w) ∧
        said t.texts ++ said t.pending ++ said (ofStream none w.texts) =
          said (t.listen none (.message (some m)) w).texts ++
            said (t.listen none (.message (some m)) w).pending := by
    have hother : part none m = .other := part_other hpart (by simp)
    rw [listen_other hother, hw, htexts]
    refine ⟨?_, List.append_nil _⟩
    rw [Bool.not_false, Bool.and_true]
    exact hd
  cases hh with
  | aside hi hs =>
    rw [listen_silent (messageOf_none hi), hs]
    refine ⟨?_, List.append_nil _⟩
    exact h.enters .stays
  | «open» hp hi hs =>
    obtain ⟨hpending, hspoke⟩ := h.idle hp
    rw [listen_silent (messageOf_none hi), hs]
    refine ⟨⟨h.streamed, ?_, fun hne => absurd hpending hne, fun hne => absurd hpending hne,
      fun _ => ⟨hpending, ?_⟩⟩, List.append_nil _⟩
    · exact h.emitted.trans (Bool.and_true _).symm
    · rw [hspoke, Bool.false_and]
  | first hp =>
    obtain ⟨hpending, hspoke⟩ := h.idle hp
    rw [listen_silent rfl]
    refine ⟨⟨h.streamed, ?_, fun hne => absurd hpending hne, fun hne => absurd hpending hne,
      fun hp => by cases hp⟩, List.append_nil _⟩
    rw [show c.emitted = false from h.emitted.trans hspoke]
    exact (Bool.and_false _).symm
  | start hp =>
    rw [listen_silent rfl]
    exact ⟨h.enters (.starts hp), List.append_nil _⟩
  | @other m d started hother henter =>
    rw [listen_other (hother none)]
    exact ⟨h.enters henter, List.append_nil _⟩
  | @«over» m phase hpart hphase =>
    have hpending : t.pending = [] := by
      have := hfits m rfl
      rw [hpart] at this
      exact List.isEmpty_iff.1 this
    have hlisten : t.listen none (.message (some m)) {} = t := by
      simp [Telling.listen, messageOf, startOf, hpart, Telling.hear]
    rw [hlisten]
    exact ⟨⟨h.streamed, h.emitted, fun hne => absurd hpending hne, fun hne => absurd hpending hne,
      fun hp => absurd hp hphase⟩, List.append_nil _⟩
  | @delta m text d started hpart henter hbetween hidle =>
    have hd := h.enters henter
    have hlisten : t.listen none (.message (some m)) { texts := [(none, text)], started } =
        { t with pending := t.pending ++ [text], spoke := true } := by
      simp [Telling.listen, messageOf, hpart, Telling.hear]
    rw [hlisten]
    refine ⟨⟨by simp, rfl, fun _ => hbetween, fun _ => rfl, fun hp => absurd hp hidle⟩, ?_⟩
    rw [show ofStream none [(none, text)] = [text] from ofStream_own none [text], said_append]
    exact List.append_assoc ..
  | @whole m texts d started hpart henter hidle =>
    have hd := h.enters henter
    have hfit := hfits m rfl
    rw [hpart] at hfit
    have hlisten (w : Tone) (hw : w.started = started) : t.listen none (.message (some m)) w =
        { texts := t.texts ++ texts, pending := [], spoke := t.spoke && !started || !texts.isEmpty } := by
      simp [Telling.listen, messageOf, startOf, hpart, Telling.hear, hw]
    rw [hlisten _ rfl]
    have hempty : ([] : List String) ≠ [] → False := fun hne => hne rfl
    have hemitted : d.emitted = (t.spoke && !started) := hd.emitted
    have hstreamed : d.streamed = !t.pending.isEmpty := hd.streamed
    rcases hpending : t.pending with _ | ⟨text, rest⟩
    · rw [hpending] at hstreamed
      rw [hstreamed, hemitted]
      refine ⟨⟨rfl, ?_, fun hne => (hempty hne).elim, fun hne => (hempty hne).elim,
        fun hp => absurd hp hidle⟩, ?_⟩
      · simp
      · simp [ofStream_own, said]
    · have hspoke : (t.spoke && !started) = true := hd.spoken (by simp [hpending])
      have hsaid : said (text :: rest) = said texts := by
        simpa [Telling.admits, hpending] using hfit
      rw [hpending] at hstreamed
      rw [hstreamed, hemitted, hspoke]
      refine ⟨⟨rfl, ?_, fun hne => (hempty hne).elim, fun hne => (hempty hne).elim,
        fun hp => absurd hp hidle⟩, ?_⟩
      · simp
      · rw [said_append, ← hsaid]
        simp [said, ofStream]
  | @result m d started hpart henter =>
    have hd := h.enters henter
    have hpending : t.pending = [] := by
      have := hfits m rfl
      rw [hpart] at this
      exact List.isEmpty_iff.1 this
    have hemitted : d.emitted = (t.spoke && !started) := hd.emitted
    have hlisten (w : Tone) (hs : w.started = started) (hf : w.finished = true) :
        t.listen none (.message (some m)) w = { t with
          texts := t.texts ++ if failed m ∨ (t.spoke && !started) = true then [] else resultTexts m
          spoke := t.spoke && !started } := by
      simp only [Telling.listen, messageOf, startOf, hpart, Telling.hear, hs, hf, Option.isSome_none,
        Bool.false_or]
      by_cases hno : failed m = true ∨ (t.spoke && !started) = true
      · rw [if_pos hno, if_neg fun h => h.2.2 hno]
      · rw [if_neg hno, if_pos ⟨trivial, trivial, hno⟩]
    rw [hlisten _ rfl rfl]
    refine ⟨⟨hd.streamed, hemitted, fun hne => absurd hpending hne, fun hne => absurd hpending hne,
      fun hp => by cases hp⟩, ?_⟩
    rw [hemitted, hpending, said_append]
    have htexts : ofStream none (if failed m = true ∨ (t.spoke && !started) = true then [] else
        ((m.index "result").str?.filter (· ≠ "")).toList.map fun text => (none, text)) =
          if failed m = true ∨ (t.spoke && !started) = true then [] else resultTexts m := by
      split
      · rfl
      · exact ofStream_own none _
    rw [htexts]
    simp [said]
  | skipped hpart _ => exact hchild (by rw [hpart]; simp) rfl rfl ⟨h.streamed, h.emitted, h.phase, h.spoken, h.idle⟩
  | childDelta hpart _ _ =>
    exact hchild (by rw [hpart]; simp) rfl rfl ⟨h.streamed, h.emitted, h.phase, h.spoken, h.idle⟩
  | @childWhole m p texts hpart =>
    refine hchild (by rw [hpart]; simp) rfl ?_ ⟨h.streamed, h.emitted, h.phase, h.spoken, h.idle⟩
    dsimp only
    split
    · exact ofStream_other (by simp) texts
    · rfl
  | childOver hpart => exact hchild (by rw [hpart]; simp) rfl rfl ⟨h.streamed, h.emitted, h.phase, h.spoken, h.idle⟩

/-- The stream of a child: between messages, in one that is shown as it streams, or in one that waits
for its whole form. `seen` is what was shown. -/
inductive Speech.Streams (c : Speech) (p : String) (t : Telling) (seen : List Char) : Prop
  | between : t.pending = [] → p ∉ c.children → seen = said t.texts → Streams c p t seen
  | streamed : t.pending ≠ [] → p ∈ c.children → seen = said t.texts ++ said t.pending →
      Streams c p t seen
  | waiting : t.pending ≠ [] → p ∉ c.children → c.overflow = true → seen = said t.texts →
      Streams c p t seen

/-- An input that is not of the child. -/
theorem Speech.Streams.keep {p : String} {seen : List Char} {t' : Telling} (h : c.Streams p t seen)
    (htexts : t'.texts = t.texts) (hpending : t'.pending = t.pending)
    (hchildren : p ∈ c'.children ↔ p ∈ c.children)
    (hlatch : t.pending ≠ [] → c.overflow = true → c'.overflow = true) : c'.Streams p t' seen := by
  cases h with
  | between h₁ h₂ h₃ =>
    exact .between (hpending.trans h₁) (fun hp => h₂ (hchildren.1 hp)) (by rw [htexts, h₃])
  | streamed h₁ h₂ h₃ =>
    exact .streamed (by rwa [hpending]) (hchildren.2 h₂) (by rw [htexts, hpending, h₃])
  | waiting h₁ h₂ h₃ h₄ =>
    exact .waiting (by rwa [hpending]) (fun hp => h₂ (hchildren.1 hp)) (hlatch h₁ h₃) (by rw [htexts, h₄])

/-- What one input shows of a child is what was said by it, or waits to be. -/
theorem Speech.Hears.child {p : String} {seen : List Char} (hh : c.Hears f i w c')
    (h : c.Streams p t seen)
    (hfits : ∀ m, messageOf i = some m → t.admits (part (some p) m) = true)
    (hdelta : ∀ m text, messageOf i = some m → part (some p) m = .delta text → f p = true)
    (hwhole : ∀ m texts, messageOf i = some m → part (some p) m = .whole texts →
      f p = true ∨ p ∈ c.children)
    (hlatch : t.pending ≠ [] → c.overflow = true → c'.overflow = true) :
    c'.Streams p (t.listen (some p) i w) (seen ++ said (ofStream (some p) w.texts)) := by
  have hsilent {w : Tone} (hw : ofStream (some p) w.texts = []) :
      seen ++ said (ofStream (some p) w.texts) = seen := by
    rw [hw]
    exact List.append_nil _
  have hother {m : Json} {s : Option String} (hpart : part s m ≠ .other) (hs : some p ≠ s) {w : Tone} :
      t.listen (some p) (.message (some m)) w = { t with spoke := t.spoke && !w.started } :=
    listen_other (part_other hpart hs)
  cases hh with
  | aside hi hs =>
    rw [listen_silent (messageOf_none hi), hsilent rfl]
    exact h.keep rfl rfl Iff.rfl hlatch
  | «open» hp hi hs =>
    rw [listen_silent (messageOf_none hi), hsilent rfl]
    exact h.keep rfl rfl Iff.rfl hlatch
  | first hp =>
    rw [listen_silent rfl, hsilent rfl]
    exact h.keep rfl rfl Iff.rfl hlatch
  | start hp =>
    rw [listen_silent rfl, hsilent rfl]
    exact h.keep rfl rfl Iff.rfl hlatch
  | other hnone henter =>
    rw [listen_other (hnone _), hsilent rfl]
    refine h.keep rfl rfl ?_ hlatch
    cases henter <;> exact Iff.rfl
  | «over» hpart hphase =>
    rw [hother (by rw [hpart]; simp) (by simp), hsilent rfl]
    exact h.keep rfl rfl Iff.rfl hlatch
  | @delta m text d started hpart henter hbetween hidle =>
    rw [hother (by rw [hpart]; simp) (by simp), hsilent (ofStream_other (by simp) [text])]
    refine h.keep rfl rfl ?_ hlatch
    cases henter <;> exact Iff.rfl
  | @whole m texts d started hpart henter hidle =>
    rw [hother (by rw [hpart]; simp) (by simp), hsilent]
    · refine h.keep rfl rfl ?_ hlatch
      cases henter <;> exact Iff.rfl
    · dsimp only
      split
      · rfl
      · exact ofStream_other (by simp) texts
  | @result m d started hpart henter =>
    rw [hother (by rw [hpart]; simp) (by simp), hsilent]
    · refine h.keep rfl rfl ?_ hlatch
      cases henter <;> exact Iff.rfl
    · dsimp only
      split
      · rfl
      · exact ofStream_other (by simp) _
  | @skipped m q text hpart hskip =>
    rw [hsilent rfl]
    by_cases hq : q = p
    · subst hq
      have hfollow : f q = true := hdelta m text rfl hpart
      obtain ⟨hnot, hfull⟩ := hskip hfollow
      have hlisten : t.listen (some q) (.message (some m)) {} =
          { t with pending := t.pending ++ [text], spoke := true } := by
        simp [Telling.listen, messageOf, hpart, Telling.hear]
      have hover : (c.overflow || f q) = true := by rw [hfollow, Bool.or_true]
      rw [hlisten]
      refine .waiting (by simp) hnot hover ?_
      cases h with
      | between _ _ h => exact h
      | streamed _ hp _ => exact absurd hp hnot
      | waiting _ _ _ h => exact h
    · rw [hother (by rw [hpart]; simp) (by simpa using Ne.symm hq)]
      exact h.keep rfl rfl Iff.rfl hlatch
  | @childDelta m q text hpart hfollow hshow =>
    by_cases hq : q = p
    · subst hq
      have hlisten (w : Tone) : t.listen (some q) (.message (some m)) w =
          { t with pending := t.pending ++ [text], spoke := true } := by
        simp [Telling.listen, messageOf, hpart, Telling.hear]
      have hown : ofStream (some q) [(some q, text)] = [text] := ofStream_own (some q) [text]
      rw [hlisten]
      show Speech.Streams _ q _ (seen ++ said (ofStream (some q) [(some q, text)]))
      rw [hown]
      refine .streamed (by simp) (List.mem_insert_self) ?_
      rw [said_append]
      cases h with
      | between hpending _ h => simp [h, hpending, said]
      | streamed _ _ h => rw [h, List.append_assoc]
      | waiting _ hp hover _ => exact absurd ⟨hp, .inr hover⟩ hshow
    · rw [hother (by rw [hpart]; simp) (by simpa using Ne.symm hq),
        hsilent (ofStream_other (by simpa using hq) [text])]
      refine h.keep rfl rfl ?_ hlatch
      show p ∈ c.children.insert q ↔ _
      rw [List.mem_insert_iff]
      exact ⟨fun hp => hp.resolve_left (Ne.symm hq), .inr⟩
  | @childWhole m q texts hpart =>
    by_cases hq : q = p
    · subst hq
      have hlisten (w : Tone) : (t.listen (some q) (.message (some m)) w).texts = t.texts ++ texts ∧
          (t.listen (some q) (.message (some m)) w).pending = [] := by
        simp [Telling.listen, messageOf, hpart, Telling.hear]
      have hfit := hfits m rfl
      rw [hpart] at hfit
      have hgone : q ∉ c.children.filter (· ≠ q) := by simp
      have hknown := hwhole m texts rfl hpart
      refine .between (hlisten _).2 hgone ?_
      rw [(hlisten _).1, said_append]
      have hnow (hp : q ∉ c.children) : ofStream (some q) (if f q = true ∧ q ∉ c.children then
          texts.map fun text => (some q, text) else []) = texts := by
        rw [if_pos ⟨hknown.resolve_right hp, hp⟩]
        exact ofStream_own _ _
      cases h with
      | between _ hp h => rw [hnow hp, h]
      | streamed hpending hp h =>
        have hsaid : said t.pending = said texts := by simpa [Telling.admits, hpending] using hfit
        rw [if_neg fun hboth => hboth.2 hp, h, hsaid]
        exact List.append_nil _
      | waiting _ hp _ h => rw [hnow hp, h]
    · rw [hother (by rw [hpart]; simp) (by simpa using Ne.symm hq), hsilent]
      · refine h.keep rfl rfl ?_ hlatch
        show p ∈ c.children.filter (· ≠ q) ↔ _
        simp [Ne.symm hq]
      · dsimp only
        split
        · exact ofStream_other (by simpa using hq) texts
        · rfl
  | @childOver m q hpart =>
    rw [hsilent rfl]
    by_cases hq : q = p
    · subst hq
      have hpending : t.pending = [] := by
        have := hfits m rfl
        rw [hpart] at this
        exact List.isEmpty_iff.1 this
      have hlisten : t.listen (some q) (.message (some m)) {} = t := by
        simp [Telling.listen, messageOf, startOf, hpart, Telling.hear]
      rw [hlisten]
      refine .between hpending (by simp) ?_
      cases h with
      | between _ _ h => exact h
      | streamed hne => exact absurd hpending hne
      | waiting hne => exact absurd hpending hne
    · rw [hother (by rw [hpart]; simp) (by simpa using Ne.symm hq)]
      refine h.keep rfl rfl ?_ hlatch
      show p ∈ c.children.filter (· ≠ q) ↔ _
      simp [Ne.symm hq]

theorem shown_concat {s : Option String} {log : Log} {out : List Action} :
    said (shown s (log ++ [(i, out)])) = said (shown s log) ++ said (ofStream s (tone out).texts) := by
  rw [shown, List.flatMap_append, said_append]
  simp [shown]

theorem told_concat {s : Option String} {log : Log} {out : List Action} :
    told s (log ++ [(i, out)]) = (told s log).listen s i (tone out) := Runs.run_concat ..

theorem orderly_concat {s : Option String} {log : Log} {out : List Action} :
    Orderly s (log ++ [(i, out)]) ↔
      Orderly s log ∧ ∀ m, messageOf i = some m → (told s log).admits (part s m) = true := by
  rw [Orderly, Runs.throughout_append]
  refine and_congr_right fun _ => ?_
  simp only [Runs.Throughout, and_true, told]
  rcases messageOf i with _ | m <;> simp

/-- What holds of the turn between the inputs of a session. -/
def TurnSaid (a : Claude) (log : Log) : Prop :=
  Orderly none log → a.speech.Agrees (told none log) ∧
    said (shown none log) = said (told none log).texts ++ said (told none log).pending

theorem run_turnSaid {session : Session} {config : LaunchConfig} (hcreate : create session config = .ok a)
    (inputs : List Input) : Machine.Reached TurnSaid (Machine.run advance survivable a inputs) := by
  have hstart : a.speech = ⟨.idle, false, false, [], false⟩ := by
    simp only [create, Fallible.bind_eq_ok, Fallible.pure_eq_ok] at hcreate
    obtain ⟨_, _, rfl⟩ := hcreate
    rfl
  refine Machine.run_invariant (fun _ => ?_) ?_ ?_ inputs
  · rw [hstart]
    exact ⟨⟨rfl, rfl, fun h => absurd rfl h, fun h => absurd rfl h, fun _ => ⟨rfl, rfl⟩⟩, rfl⟩
  · intro a log i out b h hrun horder
    obtain ⟨horder, hfits⟩ := orderly_concat.1 horder
    obtain ⟨hagrees, hsaid⟩ := h horder
    obtain ⟨hagrees', hsaid'⟩ := ((wp_run advance_hears hrun).1 out rfl).turn hagrees hfits
    rw [told_concat, shown_concat, hsaid]
    exact ⟨hagrees', hsaid'⟩
  · intro a log i e b hl h hrun
    rw [(wp_run advance_spec hrun).2 e rfl (by rintro line rfl; cases hl)]
    exact h

def Part.isDelta : Part → Bool
  | .delta _ => true
  | _ => false

def Part.isWhole : Part → Bool
  | .whole _ => true
  | _ => false

/-- A child whose texts are shown: it is followed when it streams, and when a message of it comes that
was not shown, and the overflow is not lifted in the middle of a message. -/
def Followed (p : String) (l : Machine.Life Claude Input Action) (i : Input) : Prop :=
  l.ended = false →
    ((messageOf i).any (fun m => (part (some p) m).isDelta) = true → l.state.follows p = true) ∧
    ((messageOf i).any (fun m => (part (some p) m).isWhole) = true →
      l.state.follows p = true ∨ p ∈ l.state.streamedChildren) ∧
    ((told (some p) l.log).pending ≠ [] → l.state.childStreamOverflow = true →
      (Machine.take advance survivable l i).state.childStreamOverflow = true)

instance (p : String) (l : Machine.Life Claude Input Action) (i : Input) : Decidable (Followed p l i) :=
  inferInstanceAs (Decidable (_ → _ ∧ _ ∧ _))

/-- What holds of a child between the inputs of a session. -/
def ChildSaid (p : String) (a : Claude) (log : Log) : Prop :=
  Orderly (some p) log → a.speech.Streams p (told (some p) log) (said (shown (some p) log))

theorem run_childSaid {session : Session} {config : LaunchConfig}
    (hcreate : create session config = .ok a) (p : String) {inputs : List Input}
    (hfollowed : Runs.Throughout (Machine.take advance survivable) (Followed p) { state := a } inputs) :
    Machine.Reached (ChildSaid p) (Machine.run advance survivable a inputs) := by
  have hstart : a.streamedChildren = [] := by
    simp only [create, Fallible.bind_eq_ok, Fallible.pure_eq_ok] at hcreate
    obtain ⟨_, _, rfl⟩ := hcreate
    rfl
  refine Runs.throughout_keeps (P := Machine.Reached (ChildSaid p)) (fun l i hl hi => ?_)
    ⟨a, fun _ => .between rfl ?_ rfl, fun _ => rfl⟩ hfollowed
  · refine Machine.take_keeps hl (fun out b h hend hrun horder => ?_) fun e b hlenient h hend hrun => ?_
    · obtain ⟨hdelta, hwhole, hlatch⟩ := hi hend
      have htake : (Machine.take advance survivable l i).state = b := by
        simp [Machine.take, hend, hrun]
      obtain ⟨horder, hfits⟩ := orderly_concat.1 horder
      rw [told_concat, shown_concat]
      refine ((wp_run advance_hears hrun).1 out rfl).child (h horder) hfits (fun m text hm hpart => ?_)
        (fun m texts hm hpart => ?_) fun hpending hover => ?_
      · exact hdelta (by simp [hm, hpart, Part.isDelta])
      · exact hwhole (by simp [hm, hpart, Part.isWhole])
      · rw [htake] at hlatch
        exact hlatch hpending hover
    · rw [(wp_run advance_spec hrun).2 e rfl (by rintro line rfl; cases hlenient)]
      exact h
  · show p ∉ a.streamedChildren
    rw [hstart]
    exact List.not_mem_nil

/-- Every text is shown once. Of the turn, when what is streamed of a message comes right before it, the
texts of the messages are shown in order, and that of a result when its turn has no other. So are the
texts of a child that is followed. -/
theorem texts_once (session : Session) (config : LaunchConfig) (a : Claude)
    (hcreate : create session config = .ok a) (inputs : List Input) :
    let log := (Machine.run advance survivable a inputs).log
    (Orderly none log → (told none log).pending = [] →
      said (shown none log) = said (told none log).texts) ∧
    ∀ p, Runs.Throughout (Machine.take advance survivable) (Followed p) { state := a } inputs →
      Orderly (some p) log → (told (some p) log).pending = [] →
        said (shown (some p) log) = said (told (some p) log).texts := by
  intro log
  constructor
  · intro horder hpending
    obtain ⟨b, hb, -⟩ := run_turnSaid hcreate inputs
    rw [(hb horder).2, hpending]
    exact List.append_nil _
  · intro p hfollowed horder hpending
    obtain ⟨b, hb, -⟩ := run_childSaid hcreate p hfollowed
    cases hb horder with
    | between _ _ h => exact h
    | streamed hne => exact absurd hpending hne
    | waiting hne => exact absurd hpending hne

/-- The JSON of a stream: a piece of text, and a whole message. -/
def parentField (s : Option String) : String × Json := ("parent_tool_use_id", .opt .str s)

def pieceOf (s : Option String) (text : String) : Input :=
  .message (some (.obj [("type", .str "stream_event"), parentField s,
    ("event", .obj [("type", .str "content_block_delta"),
      ("delta", .obj [("type", .str "text_delta"), ("text", .str text)])])]))

def wholeOf (s : Option String) (blocks : List Json) : Input :=
  .message (some (.obj [("type", .str "assistant"), parentField s,
    ("message", .obj [("content", .arr blocks)])]))

def textBlock (text : String) : Json := .obj [("type", .str "text"), ("text", .str text)]

def agentCall (id : String) : Json :=
  .obj [("type", .str "tool_use"), ("id", .str id), ("name", .str "Task"), ("input", .obj [])]

/-- A child streams while the turn does. -/
def twoStreams : List Input :=
  [.start "hello", acknowledgement, wholeOf none [textBlock "go", agentCall "c"], pieceOf none "a",
    pieceOf (some "c") "h", pieceOf none "b", pieceOf (some "c") "i", wholeOf none [textBlock "ab"],
    wholeOf (some "c") [textBlock "hi"], .message (some (resultOf "ab"))]

theorem texts_once_twoStreams :
    let log := (Machine.run advance survivable {} twoStreams).log
    said (shown none log) = "goab".toList ∧ said (shown (some "c") log) = "hi".toList := by
  have h := texts_once default {} {} rfl twoStreams
  exact ⟨(h.1 (by decide +kernel) (by decide +kernel)).trans (by decide +kernel),
    (h.2 "c" (by decide +kernel) (by decide +kernel) (by decide +kernel)).trans (by decide +kernel)⟩

/-- A child that was never announced. -/
def strangerSpeaks : List Input :=
  [.start "hello", acknowledgement, wholeOf (some "c") [textBlock "hi"]]

/-- The text of a child that is not known is not shown. -/
theorem stranger_is_silent :
    let log := (Machine.run advance survivable {} strangerSpeaks).log
    Orderly (some "c") log ∧ (told (some "c") log).pending = [] ∧
      said (shown (some "c") log) ≠ said (told (some "c") log).texts := by
  decide +kernel

end Claude

end LatteWork
