import LatteWork.Agents.Claude
import LatteWork.Lib.Machine

/-!
# The turns of a Claude session

What of the adapter decides about turns and handed-off inputs, and all that one input can do to it
(`Moves`). Messages of children, control traffic and what is shown of a turn leave it alone.
-/

namespace LatteWork

namespace Claude

open Prog Assoc

/-- The part of the adapter that turns are decided by. -/
structure Turns where
  phase : Phase
  queued : List (String × String)
  consumed : List String
  lastResult : Option String

def turns (a : Claude) : Turns where
  phase := a.phase
  queued := a.queuedInputs
  consumed := a.consumedInputs
  lastResult := a.lastResult

/-- A frame that brings the agent something to do. -/
def isPrompt : Action → Bool
  | .write frame => kind frame = "user"
  | _ => false

/-- An action that tells nothing of a turn or of an input. -/
def remark : Action → Bool
  | .turnStarted | .finished .. | .inputsConsumed _ | .inputRejected .. => false
  | x => !isPrompt x

def Remarks (out : List Action) : Prop := ∀ x ∈ out, remark x = true

/-- A text that is shown, under the child whose it is. -/
def textOf : Action → Option (Option String × String)
  | .event e =>
    match e.event with
    | .text text => some (none, text)
    | _ => none
  | .subagentEvent parent e =>
    match e.event with
    | .text text => some (some parent, text)
    | _ => none
  | _ => none

/-- A remark that is no text. -/
def plain (x : Action) : Bool := remark x && (textOf x).isNone

def Plain (out : List Action) : Prop := ∀ x ∈ out, plain x = true

/-- The part of the adapter that shown texts are decided by. -/
structure Speech where
  phase : Phase
  streamed : Bool
  emitted : Bool
  children : List String
  overflow : Bool

def speech (a : Claude) : Speech where
  phase := a.phase
  streamed := a.streamed
  emitted := a.emittedText
  children := a.streamedChildren
  overflow := a.childStreamOverflow

/-- The successful answer to `initialize`. -/
def acknowledges (m : Json) : Bool :=
  kind m = "control_response" && ((m.index "response").index "request_id").str? = some "latte-init" &&
    subtype (m.index "response") = "success"

/-- A result of the turn itself. -/
def endsTurn (m : Json) : Bool := kind m = "result" && (resultChild m).isNone

namespace Turns

/-- The outstanding inputs a message names are going to be consumed. -/
def attributed (c : Turns) (m : Json) : Turns :=
  { c with consumed := (named m).filter (fun uuid => (c.queued.lookup uuid).isSome) ∪ c.consumed }

/-- The requests that are reported consumed. -/
def reported (c : Turns) : List String := c.consumed.filterMap fun uuid => c.queued.lookup uuid

/-- What the report is. -/
def report (c : Turns) : List Action :=
  if c.reported = [] then [] else [.inputsConsumed c.reported]

def settled (c : Turns) : Turns :=
  { c with queued := c.queued.filter (·.1 ∉ c.consumed), consumed := [] }

/-- All that one accepted input does to the turns. -/
inductive Moves (c : Turns) : Input → List Action → Turns → Prop
  | aside {i out} : (∀ text, i ≠ .start text) → (∀ r text uuid, i ≠ .queue r text uuid) →
      (∀ line, i ≠ .message line) → Remarks out → Moves c i out c
  | «open» {i out phase} : c.phase = .idle → (i = .open ∨ i = .discoverCommands) →
      phase ∈ [.opening, .discovering] → Remarks out → Moves c i out { c with phase }
  | queue {r text uuid} : c.phase = .running → c.queued.length < 16 →
      Moves c (.queue r text uuid) [.write (.obj (prompt text ++ [("uuid", .str uuid)]))]
        { c with queued := put uuid r c.queued }
  | first {text out} : c.phase = .idle → Remarks out →
      Moves c (.start text) out { c with phase := .initializing text }
  | start {text} : c.phase = .betweenTurns →
      Moves c (.start text) [.write (.obj (prompt text))] { c with phase := .running }
  | message {m out} : Remarks out → Moves c (.message (some m)) out (c.attributed m)
  | ready {m text} : acknowledges m = true → c.phase = .initializing text →
      Moves c (.message (some m)) [.ready, .write (.obj (prompt text))]
        { c.attributed m with phase := .running }
  | opened {m out phase} : acknowledges m = true → c.phase ∈ [.opening, .discovering] →
      phase ∈ [.betweenTurns, .finished] → Remarks out →
      Moves c (.message (some m)) out { c.attributed m with phase }
  | revived {m out} : c.phase = .betweenTurns → Remarks out →
      Moves c (.message (some m)) (.turnStarted :: out) { c.attributed m with phase := .running }
  | trailing {m} : endsTurn m = true → c.phase = .betweenTurns →
      Moves c (.message (some m)) (c.attributed m).report (c.attributed m).settled
  | result {m rest message} : endsTurn m = true → c.phase = .running ∨ c.phase = .betweenTurns →
      Remarks rest →
      Moves c (.message (some m))
        ((c.attributed m).report ++ (if c.phase = .betweenTurns then [.turnStarted] else []) ++ rest ++
          [.finished (failed m) message])
        { (c.attributed m).settled with phase := .betweenTurns, lastResult := (m.index "result").str? }

end Turns

/-! ## What leaves the turns alone -/

theorem remarks_nil : Remarks [] := fun _ hx => absurd hx List.not_mem_nil

theorem remarks_cons {x : Action} {out : List Action} :
    Remarks (x :: out) ↔ remark x = true ∧ Remarks out := by
  simp [Remarks]

theorem remarks_single {x : Action} (h : remark x = true) : Remarks [x] :=
  remarks_cons.2 ⟨h, remarks_nil⟩

theorem remarks_append {out more : List Action} :
    Remarks (out ++ more) ↔ Remarks out ∧ Remarks more := by
  simp only [Remarks, List.mem_append]
  exact ⟨fun h => ⟨fun x hx => h x (.inl hx), fun x hx => h x (.inr hx)⟩,
    fun h x hx => hx.elim (h.1 x) (h.2 x)⟩

theorem plain_nil : Plain [] := fun _ hx => absurd hx List.not_mem_nil

theorem plain_single {x : Action} (h : plain x = true) : Plain [x] := fun _ hx =>
  List.mem_singleton.1 hx ▸ h

theorem plain_append {out more : List Action} (h : Plain out) (hm : Plain more) :
    Plain (out ++ more) := fun x hx => (List.mem_append.1 hx).elim (h x) (hm x)

theorem Plain.remarks {out : List Action} (h : Plain out) : Remarks out := fun x hx =>
  (Bool.and_eq_true_iff.1 (h x hx)).1

/-- A program that leaves the turns alone. -/
abbrev Idle {β : Type} (m : Step β) (Q : β → Prop) : Prop := Leaves turns m Q

/-- A program that leaves the turns and the texts alone. -/
abbrev Aside {β : Type} (m : Step β) (Q : β → Prop) : Prop :=
  Leaves (fun a => (a.turns, a.speech)) m Q

theorem Aside.idle {m : Step (List Action)} (h : Aside m Plain) : Idle m Remarks := fun a =>
  wp_mono (h a) (fun _ _ ⟨hout, hview⟩ => ⟨hout.remarks, congrArg Prod.fst hview⟩) fun _ _ h => h

variable {a : Claude} {m : Json}

theorem updateContext_eq (model : String) (usage : Json) :
    ∃ context, a.updateContext model usage = { a with context } := by
  rw [updateContext]
  split
  · dsimp only
    split
    · exact ⟨_, rfl⟩
    · exact ⟨a.context, rfl⟩
  · exact ⟨a.context, rfl⟩

@[simp]
theorem turns_updateContext {model : String} {usage : Json} :
    (a.updateContext model usage).turns = a.turns := by
  obtain ⟨_, h⟩ := updateContext_eq (a := a) model usage
  rw [h]
  rfl

@[simp]
theorem speech_updateContext {model : String} {usage : Json} :
    (a.updateContext model usage).speech = a.speech := by
  obtain ⟨_, h⟩ := updateContext_eq (a := a) model usage
  rw [h]
  rfl

@[simp]
theorem turns_rememberSkillCommand {text : String} :
    (a.rememberSkillCommand text).turns = a.turns := by
  rw [rememberSkillCommand]
  split <;> rfl

@[simp]
theorem turns_rememberTitleDescription {text : String} :
    (a.rememberTitleDescription text).turns = a.turns := by
  rw [rememberTitleDescription]
  split <;> rfl

@[simp]
theorem turns_accountWindow {models : Json} : (a.accountWindow models).turns = a.turns := by
  rw [accountWindow]
  split <;> rfl

theorem childDelta_idle (event : Json) (parent : String) : Idle (childDelta event parent) Remarks := by
  refine .bind .current fun a _ => ?_
  split
  · refine .ite (.ite ?_ ?_) (.pure remarks_nil)
    · exact .bind (.update fun _ => rfl) fun _ _ => .pure remarks_nil
    · exact .bind (.update fun _ => rfl) fun _ _ => .pure (remarks_single rfl)
  · exact .pure remarks_nil

theorem childBlock_remarks (native : Option String) (known streamed : Bool) (parent : String)
    (block : Json) : Remarks (childBlock native known streamed parent block) := by
  rw [childBlock]
  split
  · intro x hx
    obtain ⟨_, _, rfl⟩ := List.mem_map.1 hx
    rfl
  · split
    · split
      · split
        · exact remarks_cons.2 ⟨rfl, remarks_cons.2 ⟨rfl, remarks_single rfl⟩⟩
        · exact remarks_single rfl
      · exact remarks_nil
    · exact remarks_nil

theorem childMessage_idle (m : Json) (parent : String) : Idle (childMessage m parent) Remarks := by
  refine .bind .current fun a _ => .ite (childDelta_idle _ _) (.ite ?_ (.ite (.pure ?_) (.pure remarks_nil)))
  · refine .bind (.update fun _ => rfl) fun _ _ => .pure fun x hx => ?_
    obtain ⟨block, _, hx⟩ := List.mem_flatMap.1 hx
    exact childBlock_remarks _ _ _ _ _ x hx
  · intro x hx
    obtain ⟨block, _, hx⟩ := List.mem_filterMap.1 hx
    split at hx
    · obtain ⟨_, _, rfl⟩ := Option.map_eq_some_iff.1 hx
      rfl
    · cases hx

theorem titleReport_plain (id : String) (response : Json) : plain (titleReport id response) = true := by
  rw [titleReport]
  split
  · split <;> rfl
  · rfl

theorem titleGenerated_aside (m : Json) : Aside (titleGenerated m) Plain := by
  refine .bind .current fun a _ => .bind (.update fun _ => rfl) fun _ _ => ?_
  split
  · exact .ite (.pure plain_nil) (.pure (plain_single (titleReport_plain _ _)))
  · exact .pure plain_nil

theorem renamed_aside (requested : String) (response : Json) :
    Aside (renamed requested response) Plain := by
  refine .bind .current fun a _ => .ite ?_ ?_
  · exact .bind (.update fun _ => rfl) fun _ _ => .pure (plain_single rfl)
  · exact .bind (.update fun _ => rfl) fun _ _ => .pure (plain_single rfl)

theorem titleChanged_aside (m : Json) : Aside (titleChanged m) Plain := by
  rw [titleChanged]
  split
  · refine .bind .current fun a _ => .bind (.update fun _ => rfl) fun _ _ => .pure ?_
    split
    · exact plain_nil
    · exact plain_single rfl
  · exact .pure plain_nil

theorem systemInit_aside (m : Json) : Aside (systemInit m) Plain := by
  refine .bind (.update fun _ => rfl) fun _ _ => .bind (.update fun _ => rfl) fun _ _ => ?_
  refine .bind (.when (.update fun _ => rfl)) fun _ _ => .pure fun x hx => ?_
  obtain ⟨_, _, rfl⟩ := List.mem_map.1 hx
  rfl

theorem makeRoom_aside (id : String) : Aside (makeRoom id) fun _ => True := by
  refine .bind .current fun a _ => .when (.bind .orError fun _ _ => .update fun _ => rfl)

theorem taskStarted_aside (m : Json) : Aside (taskStarted m) Plain := by
  refine .bind .lift fun id _ => .bind .current fun a _ => .bind .bailIf fun _ _ => ?_
  refine .bind (.update fun _ => rfl) fun _ _ => .ite ?_ (.pure plain_nil)
  refine .bind (.update fun _ => rfl) fun _ _ => .bind (makeRoom_aside _) fun _ _ => ?_
  exact .bind (.update fun _ => rfl) fun _ _ => .pure (plain_single rfl)

theorem taskChanged_aside (m : Json) : Aside (taskChanged m) Plain := by
  refine .bind .lift fun id _ => .bind .current fun a _ => ?_
  refine .bind (.when (.update fun _ => rfl)) fun _ _ => .pure fun x hx => ?_
  obtain ⟨_, _, rfl⟩ := List.mem_map.1 hx
  rfl

theorem forgetContext_aside : Aside forgetContext Plain :=
  .bind (.update fun _ => rfl) fun _ _ => .pure (plain_single rfl)

theorem nativeRequest_aside (m : Json) : Aside (nativeRequest m) Plain := by
  refine .ite (.bind .bailIf fun _ _ => .ite ?_ (.pure (plain_single rfl))) (.pure (plain_single rfl))
  split
  · exact .pure (plain_single rfl)
  · exact .pure (plain_single rfl)

theorem streamCounters_aside (event : Json) : Aside (streamCounters event) Plain := by
  refine .bind .current fun a _ => .ite ?_ (.ite ?_ (.ite ?_ (.pure plain_nil)))
  · exact .bind (.update fun _ => rfl) fun _ _ => .pure plain_nil
  · split
    · refine .bind (.update fun _ => rfl) fun _ _ => .bind (.update fun _ => ?_) ?_
      · rw [turns_updateContext, speech_updateContext]
      refine fun _ _ => .bind .current fun a _ => .pure ?_
      split
      · exact plain_single rfl
      · exact plain_nil
    · exact .pure plain_nil
  · refine .bind (.update fun _ => ?_) fun _ _ => .pure plain_nil
    split <;> rfl

theorem streamProgress_aside (event : Json) : Aside (streamProgress event) Plain := by
  refine .bind .current fun a _ => ?_
  split
  · refine .ite (.pure plain_nil) (.bind (.update fun _ => rfl) fun _ _ => ?_)
    exact .pure (plain_single rfl)
  · exact .pure plain_nil

theorem streamText_idle (event : Json) : Idle (streamText event) Remarks := by
  rw [streamText]
  split
  · refine .ite (.bind (.update fun _ => rfl) fun _ _ => ?_) (.pure remarks_nil)
    exact .pure (remarks_single rfl)
  · exact .pure remarks_nil

theorem streamEvent_idle (m : Json) : Idle (streamEvent m) Remarks := by
  refine .ite (.bind (streamCounters_aside _).idle fun counters hc => ?_) (.pure remarks_nil)
  refine .bind (streamProgress_aside _).idle fun progress hp => .bind (streamText_idle _) fun text ht => ?_
  exact .pure (remarks_append.2 ⟨remarks_append.2 ⟨hc, hp⟩, ht⟩)

theorem agentStarted_aside (block : Json) : Aside (agentStarted block) Plain := by
  refine .bind .orError fun id _ => .bind .current fun a _ => .bind .bailIf fun _ _ => ?_
  exact .bind (.update fun _ => rfl) fun _ _ => .pure (plain_single rfl)

theorem assistantBlock_idle (top : Bool) (block : Json) : Idle (assistantBlock top block) Remarks := by
  refine .bind .current fun a _ => .ite ?_ (.ite ?_ (.pure remarks_nil))
  · split
    · exact .bind (.update fun _ => rfl) fun _ _ => .pure (remarks_single rfl)
    · exact .pure remarks_nil
  · refine .bind (.update fun _ => rfl) fun _ _ => ?_
    refine .bind (.ite (agentStarted_aside block).idle (.pure remarks_nil)) fun started hs => ?_
    exact .pure (remarks_append.2 ⟨hs, remarks_single rfl⟩)

theorem assistant_idle (m : Json) : Idle (assistant m) Remarks := by
  refine .bind .current fun before _ => .bind (.update fun a => ?_) fun _ _ => ?_
  · split
    · exact turns_updateContext
    · rfl
  refine .bind .current fun a _ => .bind (.gather (assistantBlock_idle _) _) fun blocks hb => ?_
  refine .bind (.update fun _ => rfl) fun _ _ => .pure (remarks_append.2 ⟨?_, hb⟩)
  split
  · exact remarks_nil
  · exact remarks_single rfl

theorem recordSkillLoad_aside (name : String) : Aside (recordSkillLoad name) Plain := by
  refine .bind .current fun a _ => .ite (.pure plain_nil) ?_
  exact .bind (.update fun _ => rfl) fun _ _ => .pure (plain_single rfl)

theorem skillText_aside (text : List Char) : Aside (skillText text) Plain := by
  rw [skillText]
  split
  · refine .ite (.pure plain_nil) (.bind .current fun a _ => .bind (.update fun _ => rfl) fun _ _ => ?_)
    split
    · exact recordSkillLoad_aside _
    · exact .pure plain_nil
  · exact .pure plain_nil

theorem skillLoad_aside (m : Json) : Aside (skillLoad m) Plain := by
  refine .bind .current fun a _ => ?_
  split
  · exact .pure plain_nil
  · refine .ite (.pure plain_nil) (.ite (.ite ?_ ?_) (.ite ?_ (skillText_aside _)))
    · exact .bind (.update fun _ => rfl) fun _ _ => recordSkillLoad_aside _
    · exact .bind (.update fun _ => rfl) fun _ _ => .pure plain_nil
    · exact .bind (.update fun _ => rfl) fun _ _ => .pure plain_nil

theorem userBlock_aside (top : Bool) (block : Json) : Aside (userBlock top block) Plain := by
  refine .ite (.bind .current fun a _ => ?_) (.pure plain_nil)
  refine .bind (.when (.update fun _ => rfl)) fun _ _ => .pure (plain_append ?_ (plain_single rfl))
  split
  · exact plain_single rfl
  · exact plain_nil

theorem user_aside (m : Json) : Aside (user m) Plain := by
  refine .bind (skillLoad_aside m) fun loaded hl => .bind (.gather (userBlock_aside _) _) fun blocks hb => ?_
  exact .pure (plain_append hl hb)

theorem childResult_idle (m : Json) (parent : String) : Idle (childResult m parent) Remarks := by
  refine .bind (.update fun _ => rfl) fun _ _ => .bind .current fun a _ => .ite ?_ (.pure remarks_nil)
  exact .bind (.update fun _ => rfl) fun _ _ => .pure (remarks_single rfl)

theorem requestTitle_aside : Aside requestTitle Plain := by
  refine .bind .current fun a _ => .ite (.pure plain_nil) (.bind (.update fun _ => rfl) fun _ _ => ?_)
  split
  · exact .bind (.update fun _ => rfl) fun _ _ => .pure (plain_single rfl)
  · exact .pure plain_nil

/-! ## Every input is a move -/

variable {i : Input} {c : Turns} {out : List Action}

/-- What a program answers when it answers, from a state. -/
abbrev Answers (m : Step (List Action)) (a : Claude) (Q : List Action → Turns → Prop) : Prop :=
  wp m (fun out a' => Q out a'.turns) (fun _ _ => True) a

theorem answers_of_idle {p : Step (List Action)} {Q : List Action → Turns → Prop} (h : Idle p Remarks)
    (hQ : ∀ out, Remarks out → Q out a.turns) : Answers p a Q :=
  wp_mono (h a) (fun out a' ⟨hout, ha⟩ => by rw [show a'.turns = a.turns from ha]; exact hQ out hout)
    fun _ _ _ => trivial

/-- A message that is not of the turn names no input. -/
theorem attributed_of_control (h : kind m = "control_response") : c.attributed m = c := by
  have hnone : named m = [] := by
    rw [named, if_neg]
    simp [h]
  rw [Turns.attributed, hnone]
  rfl

theorem attributed_of_child {parent : String} (h : (m.index "parent_tool_use_id").str? = some parent) :
    c.attributed m = c := by
  have hnone : named m = [] := by
    rw [named, if_neg]
    rintro ⟨hnull, _⟩
    rcases hv : m.index "parent_tool_use_id" <;> simp_all [Json.isNull, Json.str?]
  rw [Turns.attributed, hnone]
  rfl

theorem checkCommand_spec {text : String} {Q : Unit → Claude → Prop} {E : String → Claude → Prop}
    (hQ : Q () a) (hE : ∀ e, E e a) : wp (checkCommand text) Q E a :=
  wp_bind.2 (wp_current.2 (wp_bailIf.2 ⟨fun _ => hE _, fun _ => hQ⟩))

theorem acknowledges_kind (h : acknowledges m = true) : kind m = "control_response" := by
  rw [acknowledges] at h
  simp only [Bool.and_eq_true, decide_eq_true_eq] at h
  exact h.1.1

theorem opened_spec {waiting : Option String} {catalog : Json} (hm : acknowledges m = true)
    (hp : a.phase = match waiting with | some text => .initializing text | none => .opening) :
    Answers (opened waiting catalog) a fun out c => a.turns.Moves (.message (some m)) out c := by
  have hnone : a.turns.attributed m = a.turns := attributed_of_control (acknowledges_kind hm)
  have hcatalog : Idle (when (waiting.any startsCommand) do
      let commands ← lift (parseCommands catalog)
      update fun a : Claude => { a with commands := commands.map (·.name) ∪ a.commands }) fun _ => True :=
    .when (.bind .lift fun _ _ => .update fun _ => rfl)
  refine wp_bind.2 (wp_update.2 (wp_bind.2 ?_))
  refine wp_mono (hcatalog _) (fun _ b ⟨_, hb⟩ => wp_bind.2 (wp_update.2 ?_)) fun _ _ _ => trivial
  have hb : b.turns = { a.turns with phase := .running } := hb
  rcases waiting with _ | text
  · have hopening : a.turns.phase ∈ [Phase.opening, .discovering] := by
      rw [show a.turns.phase = .opening from hp]
      simp
    have hmove : a.turns.Moves (.message (some m)) [.ready]
        { a.turns.attributed m with phase := .betweenTurns } :=
      .opened hm hopening (by simp) (remarks_single rfl)
    refine wp_bind.2 (wp_update.2 (wp_pure.2 ?_))
    show a.turns.Moves _ [.ready] { b.turns with phase := .betweenTurns }
    rw [hb]
    rwa [hnone] at hmove
  · have hmove : a.turns.Moves (.message (some m)) [.ready, .write (.obj (prompt text))]
        { a.turns.attributed m with phase := .running } := .ready hm hp
    refine wp_bind.2 (checkCommand_spec (wp_pure.2 ?_) fun _ => trivial)
    show a.turns.Moves _ _ b.turns
    rw [hb]
    rwa [hnone] at hmove

theorem initAnswered_spec (hkind : kind m = "control_response")
    (hid : ((m.index "response").index "request_id").str? = some "latte-init") :
    Answers (initAnswered m) a fun out c => a.turns.Moves (.message (some m)) out c := by
  refine wp_bind.2 (wp_current.2 (wp_bind.2 (wp_bailIf.2 ⟨fun _ => trivial, fun hsuccess => ?_⟩)))
  rw [not_not] at hsuccess
  have hm : acknowledges m = true := by
    rw [acknowledges, hkind, hid, hsuccess]
    rfl
  have hnone : a.turns.attributed m = a.turns := attributed_of_control hkind
  split
  · rename_i hp
    refine wp_bind.2 (wp_lift.2 ⟨fun commands _ => ?_, fun _ _ => trivial⟩)
    have hdiscovering : a.turns.phase ∈ [Phase.opening, .discovering] := by
      rw [show a.turns.phase = .discovering from hp]
      simp
    have hmove : a.turns.Moves (.message (some m)) [.commands commands]
        { a.turns.attributed m with phase := .finished } :=
      .opened hm hdiscovering (by simp) (remarks_single rfl)
    rwa [hnone] at hmove
  · rename_i text hp
    exact opened_spec hm hp
  · rename_i hp
    exact opened_spec hm hp
  · have hmove : a.turns.Moves (.message (some m)) [] (a.turns.attributed m) := .message remarks_nil
    rwa [hnone] at hmove

/-- The inputs that were named are reported and gone. -/
theorem settle_spec {Q : List Action → Claude → Prop} {E : String → Claude → Prop}
    (h : Q a.turns.report { a with queuedInputs := a.turns.settled.queued, consumedInputs := [] }) :
    wp settle Q E a := h

theorem finish_spec : Answers (finish m) a fun out c => ∃ rest message, Remarks rest ∧
    out = rest ++ [.finished (failed m) message] ∧
    c = { a.turns with phase := .betweenTurns, lastResult := (m.index "result").str? } := by
  refine wp_bind.2 (wp_update.2 (wp_bind.2 (wp_update.2 (wp_bind.2 (wp_current.2 (wp_bind.2 ?_))))))
  generalize hb : accountWindow _ _ = b
  have hturns : b.turns = { a.turns with phase := .betweenTurns } := by
    rw [← hb, turns_accountWindow]
    rfl
  have htitle : Idle (if failed m = true then pure [] else requestTitle) Remarks :=
    .ite (.pure remarks_nil) requestTitle_aside.idle
  refine wp_mono (htitle b) (fun titled d ⟨hout, hd⟩ => wp_bind.2 (wp_update.2 (wp_pure.2 ?_)))
    fun _ _ _ => trivial
  have hd : d.turns = b.turns := hd
  have hrest : Remarks (b.resultText m) := by
    rw [resultText]
    split
    · exact remarks_nil
    · intro x hx
      obtain ⟨_, _, rfl⟩ := List.mem_map.1 hx
      rfl
  refine ⟨_, _, remarks_append.2 ⟨remarks_append.2 ⟨?_, hrest⟩, hout⟩, rfl, ?_⟩
  · split
    · exact remarks_single rfl
    · exact remarks_nil
  · show ({ d.turns with lastResult := (m.index "result").str? } : Turns) = _
    rw [hd, hturns]

theorem ended_spec (hm : endsTurn m = true) (hp : c.phase = .running ∨ c.phase = .betweenTurns)
    (ha : a.turns = { (c.attributed m).settled with phase := .running }) :
    Answers (do
      let ended ← finish m
      pure ((c.attributed m).report ++ (if c.phase = .betweenTurns then [.turnStarted] else []) ++ ended)) a
      fun out c' => c.Moves (.message (some m)) out c' := by
  refine wp_bind.2 (wp_mono finish_spec (fun ended d ⟨rest, message, hrest, hended, hd⟩ => ?_)
    fun _ _ _ => trivial)
  have hmove := @Turns.Moves.result c m rest message hm hp hrest
  rw [wp_pure, hended, hd, ha, ← List.append_assoc]
  exact hmove

theorem turnResult_spec (hb : a.turns = c.attributed m) (hm : endsTurn m = true) :
    Answers (turnResult m) a fun out c' => c.Moves (.message (some m)) out c' := by
  have hphase : a.phase = c.phase := congrArg Turns.phase hb
  refine wp_bind.2 (settle_spec (wp_bind.2 (wp_current.2 (wp_ite.2 ⟨fun ht => ?_, fun _ => ?_⟩))))
  · have hmove := Turns.Moves.trailing hm (hphase.symm.trans ht.1)
    rw [← hb] at hmove
    exact hmove
  · generalize hs : ({ a with queuedInputs := _, consumedInputs := [] } : Claude) = s
    have hsettled : s.turns = (c.attributed m).settled := by
      rw [← hb, ← hs]
      rfl
    have hsphase : s.phase = c.phase := congrArg Turns.phase hsettled
    rw [hb]
    by_cases hp : c.phase = .betweenTurns
    · rw [if_pos (hsphase.trans hp)]
      refine wp_bind.2 (wp_bind.2 (wp_update.2 (wp_pure.2 ?_)))
      refine wp_bind.2 (wp_current.2 (wp_bind.2 (wp_bailIf.2 ⟨fun h => absurd rfl h, fun _ => ?_⟩)))
      have hspec := ended_spec (a := { s.resetTurn with phase := .running }) hm (.inr hp) (by
        rw [← hsettled]
        rfl)
      rwa [if_pos hp] at hspec
    · rw [if_neg (by rw [hsphase]; exact hp)]
      refine wp_bind.2 (wp_pure.2 (wp_bind.2 (wp_current.2 (wp_bind.2 (wp_bailIf.2 ⟨fun _ => trivial, ?_⟩)))))
      intro hrun
      rw [not_not] at hrun
      have hspec := ended_spec (a := s) hm (.inl (hsphase.symm.trans hrun)) (by
        rw [← hsettled]
        show s.turns = { s.turns with phase := .running }
        rw [← hrun]
        rfl)
      rwa [if_neg hp] at hspec

theorem kind_of_shows (h : shows m = true) :
    (m.index "parent_tool_use_id").isNull = true ∧ (kind m = "assistant" ∨ kind m = "stream_event") := by
  rw [shows, Bool.and_eq_true, Bool.or_eq_true, Bool.and_eq_true] at h
  simp only [decide_eq_true_eq] at h
  exact ⟨h.1, h.2.imp id (·.1)⟩

/-- What is shown of a turn leaves it alone. -/
theorem decodeTurn_idle (h : kind m = "assistant" ∨ kind m = "stream_event") :
    Idle (decodeTurn m) Remarks := by
  have hcontrol : kind m ≠ "control_response" := by rcases h with h | h <;> rw [h] <;> decide
  have hsystem : kind m ≠ "system" := by rcases h with h | h <;> rw [h] <;> decide
  refine .bind .current fun a _ => ?_
  rw [if_neg fun hc => hcontrol hc.1]
  split
  · exact (renamed_aside _ _).idle
  rw [if_neg fun hc => hsystem hc.1.1, if_neg fun hc => hsystem hc.1.1, dispatch, if_neg hcontrol,
    if_neg hsystem]
  rcases h with h | h
  · rw [if_neg (by rw [h]; decide), if_neg (by rw [h]; decide), if_neg (by rw [h]; decide), if_pos h]
    exact assistant_idle m
  · rw [if_neg (by rw [h]; decide), if_neg (by rw [h]; decide), if_pos h]
    exact streamEvent_idle m

theorem dispatch_spec (hb : a.turns = c.attributed m) :
    Answers (dispatch m) a fun out c' => c.Moves (.message (some m)) out c' := by
  have hidle : ∀ {p : Step (List Action)}, Idle p Remarks →
      Answers p a fun out c' => c.Moves (.message (some m)) out c' := fun hp =>
    answers_of_idle hp fun out hout => by rw [hb]; exact .message hout
  refine wp_ite.2 ⟨fun hk => ?_, fun _ => wp_ite.2 ⟨fun _ => hidle ?_, fun _ => ?_⟩⟩
  · have hac : a.turns = c := hb.trans (attributed_of_control hk)
    refine wp_ite.2 ⟨fun _ => ?_, fun _ => wp_ite.2 ⟨fun hid => ?_, fun _ => ?_⟩⟩
    · refine hidle (.bind .bailIf fun _ _ => .pure (remarks_single rfl))
    · rw [← hac]
      exact initAnswered_spec hk hid
    · exact hidle (.pure remarks_nil)
  · refine .ite (systemInit_aside m).idle (.ite ?_ (.ite (taskStarted_aside m).idle (.ite (taskChanged_aside m).idle
      (.ite forgetContext_aside.idle (.pure remarks_nil)))))
    exact .bind (.update fun _ => rfl) fun _ _ => .pure remarks_nil
  · refine wp_ite.2 ⟨fun _ => hidle forgetContext_aside.idle, fun _ => wp_ite.2 ⟨fun _ =>
      hidle (nativeRequest_aside m).idle, fun _ => wp_ite.2 ⟨fun _ => hidle (streamEvent_idle m), fun _ =>
      wp_ite.2 ⟨fun _ => hidle (assistant_idle m), fun _ => wp_ite.2 ⟨fun _ => hidle (user_aside m).idle,
      fun _ => wp_ite.2 ⟨fun hk => ?_, fun _ => hidle (.pure remarks_nil)⟩⟩⟩⟩⟩⟩
    rw [result]
    rcases hchild : resultChild m with _ | parent
    · exact turnResult_spec hb (by rw [endsTurn, hk, hchild]; rfl)
    · exact hidle (childResult_idle m parent)

theorem decodeTurn_spec (hb : a.turns = c.attributed m) :
    Answers (decodeTurn m) a fun out c' => c.Moves (.message (some m)) out c' := by
  have hidle : ∀ {p : Step (List Action)}, Idle p Remarks →
      Answers p a fun out c' => c.Moves (.message (some m)) out c' := fun hp =>
    answers_of_idle hp fun out hout => by rw [hb]; exact .message hout
  refine wp_bind.2 (wp_current.2 (wp_ite.2 ⟨fun _ => hidle (titleGenerated_aside m).idle, fun _ => ?_⟩))
  split
  · exact hidle (renamed_aside _ _).idle
  · exact wp_ite.2 ⟨fun _ => hidle (.pure remarks_nil), fun _ =>
      wp_ite.2 ⟨fun _ => hidle (titleChanged_aside m).idle, fun _ => dispatch_spec hb⟩⟩

theorem decode_spec : Answers (decode m) a fun out c' => a.turns.Moves (.message (some m)) out c' := by
  rw [decode]
  split
  · rename_i parent hparent
    have hparent := Option.eq_some_of_filter_eq_some hparent
    refine answers_of_idle (childMessage_idle m parent) fun out hout => ?_
    have hmove : a.turns.Moves (.message (some m)) out (a.turns.attributed m) := .message hout
    rwa [attributed_of_child hparent] at hmove
  · refine wp_bind.2 (wp_update.2 (wp_bind.2 (wp_current.2 (wp_bind.2 (wp_ite.2 ⟨?_, fun _ => ?_⟩)))))
    · rintro ⟨hp, hshows⟩
      refine wp_bind.2 (wp_update.2 (wp_pure.2 (wp_bind.2 ?_)))
      refine answers_of_idle (decodeTurn_idle (kind_of_shows hshows).2) fun out hout => ?_
      exact .revived hp hout
    · refine wp_pure.2 (wp_bind.2 (wp_mono (decodeTurn_spec (c := a.turns) rfl) (fun out d h => ?_)
        fun _ _ _ => trivial))
      exact h

theorem kind_questionResponse {id : String} {input r : Json} {questions : List UserQuestion}
    {answers : Option (List QuestionAnswer)}
    (h : questionResponse id input questions answers = .ok r) : kind r = "control_response" := by
  rcases answers with _ | answers
  · cases h
    rfl
  · simp only [questionResponse, Fallible.bind_eq_ok, Fallible.pure_eq_ok] at h
    obtain ⟨_, _, _, _, _, _, rfl⟩ := h
    rfl

/-- Every input is a move; a refused one that is no message changes nothing. -/
theorem advance_spec : wp (advance i) (fun out a' => a.turns.Moves i out a'.turns)
    (fun _ a' => (∀ line, i ≠ .message line) → a' = a) a := by
  cases i with
  | renameTitle id title =>
    refine wp_bind.2 (wp_current.2 (wp_bind.2 (wp_bailIf.2 ⟨fun _ _ => rfl, fun _ => ?_⟩)))
    refine wp_bind.2 (wp_bailIf.2 ⟨fun _ _ => rfl, fun _ => wp_bind.2 (wp_update.2 (wp_pure.2 ?_))⟩)
    exact .aside (by simp) (by simp) (by simp) (remarks_single rfl)
  | «open» =>
    refine wp_bind.2 (wp_current.2 (wp_bind.2 (wp_bailIf.2 ⟨fun _ _ => rfl, fun hp => ?_⟩)))
    rw [not_not] at hp
    exact wp_bind.2 (wp_update.2 (wp_pure.2 (.«open» hp (.inl rfl) (by simp) (remarks_single rfl))))
  | interrupt =>
    refine wp_bind.2 (wp_current.2 (wp_ite.2 ⟨fun _ => ?_, fun _ => ?_⟩))
    · exact .aside (by simp) (by simp) (by simp) (remarks_single rfl)
    · exact .aside (by simp) (by simp) (by simp) (remarks_single rfl)
  | discoverCommands =>
    refine wp_bind.2 (wp_current.2 (wp_bind.2 (wp_bailIf.2 ⟨fun _ _ => rfl, fun hp => ?_⟩)))
    rw [not_not] at hp
    exact wp_bind.2 (wp_update.2 (wp_pure.2 (.«open» hp (.inr rfl) (by simp) (remarks_single rfl))))
  | queue r text uuid =>
    refine wp_bind.2 (wp_current.2 (wp_bind.2 (wp_bailIf.2 ⟨fun _ _ => rfl, fun hp => wp_bind.2 ?_⟩)))
    rw [not_not] at hp
    refine checkCommand_spec (wp_bind.2 (wp_bailIf.2 ⟨fun _ _ => rfl, fun hroom => ?_⟩)) fun _ _ => rfl
    refine wp_bind.2 (wp_update.2 (wp_bind.2 (wp_update.2 (wp_pure.2 ?_))))
    rw [turns_rememberSkillCommand]
    exact .queue hp (Nat.lt_of_not_le hroom)
  | start text =>
    refine wp_bind.2 (wp_current.2 (wp_ite.2 ⟨fun hp => wp_bind.2 ?_, fun _ => ?_⟩))
    · refine checkCommand_spec (wp_bind.2 (wp_update.2 (wp_bind.2 (wp_update.2 (wp_pure.2 ?_)))))
        fun _ _ => rfl
      have hturns : ((a.rememberTitleDescription text).resetTurn.rememberSkillCommand text).turns =
          a.turns := by
        rw [turns_rememberSkillCommand]
        exact turns_rememberTitleDescription
      show a.turns.Moves _ _
        { ((a.rememberTitleDescription text).resetTurn.rememberSkillCommand text).turns with
          phase := .running }
      rw [hturns]
      exact .start hp
    · refine wp_bind.2 (wp_bailIf.2 ⟨fun _ _ => rfl, fun hp => wp_bind.2 (wp_update.2 (wp_pure.2 ?_))⟩)
      rw [not_not] at hp
      show a.turns.Moves _ _
        { ((a.rememberTitleDescription text).rememberSkillCommand text).turns with
          phase := .initializing text }
      rw [turns_rememberSkillCommand, turns_rememberTitleDescription]
      exact .first hp (remarks_single rfl)
  | message line =>
    refine wp_bind.2 (wp_current.2 (wp_bind.2 (wp_bailIf.2 ⟨fun _ h => absurd rfl (h line), fun _ => ?_⟩)))
    refine wp_bind.2 (wp_orError.2 ⟨fun m hm => ?_, fun _ h => absurd rfl (h line)⟩)
    rw [hm]
    exact wp_mono decode_spec (fun _ _ h => h) fun _ _ _ h => absurd rfl (h (some m))
  | approval id input allow =>
    refine wp_bind.2 (wp_current.2 (wp_bind.2 (wp_bailIf.2 ⟨fun _ _ => rfl, fun _ => wp_pure.2 ?_⟩)))
    exact .aside (by simp) (by simp) (by simp) (remarks_single rfl)
  | questionAnswer id input questions answers =>
    refine wp_bind.2 (wp_current.2 (wp_bind.2 (wp_bailIf.2 ⟨fun _ _ => rfl, fun _ => wp_bind.2 ?_⟩)))
    refine wp_lift.2 ⟨fun response hresponse => wp_pure.2 ?_, fun _ _ _ => rfl⟩
    refine .aside (by simp) (by simp) (by simp) (remarks_single ?_)
    show (!decide (kind response = "user")) = true
    rw [kind_questionResponse hresponse]
    rfl

end Claude

end LatteWork
