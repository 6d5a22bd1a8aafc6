import LatteWork.Proofs.TraexCompletion

/-!
# The items of a Traex turn

What a notification is to the items of a turn, and all that one input does to them (`Items`): which
tool calls and texts are shown, and which commands go on in the background.
-/

namespace LatteWork

namespace Traex

open Prog Assoc

/-- The part of the adapter that items are decided by. -/
structure Desk where
  streamed : List String
  tools : List String
  commands : List (String × BackgroundCommand)

def desk (a : Traex) : Desk where
  streamed := a.streamed
  tools := a.tools
  commands := a.backgroundCommands

/-- The tool call an action shows. -/
def toolOf : Action → Option String
  | .event e =>
    match e.event with
    | .tool id _ _ => some id
    | _ => none
  | _ => none

/-- The text an action shows. -/
def textOf : Action → Option String
  | .event e =>
    match e.event with
    | .text text => some text
    | _ => none
  | _ => none

/-! ## What a message is to the items -/

inductive Heard where
  | delta (id text : String)
  | whole (id text : String)
  | tool (id : String) (x : Json) (completed : Bool)
  | other

def isTool (kind : String) : Bool :=
  kind ∈ ["commandExecution", "fileChange", "mcpToolCall", "dynamicToolCall", "webSearch",
    "collabAgentToolCall"]

def heardItem (x : Json) (completed : Bool) : Heard :=
  match (x.index "type").str?, (x.index "id").str? with
  | some kind, some id =>
    if kind = "agentMessage" then
      if completed then .whole id ((x.index "text").str?.getD "") else .other
    else if isTool kind then .tool id x completed
    else .other
  | _, _ => .other

/-- A notification of the running turn. -/
def heardOfTurn (method : String) (params : Json) : Heard :=
  if method = "item/agentMessage/delta" then
    match (params.index "itemId").str?, (params.index "delta").str? with
    | some id, some text => .delta id text
    | _, _ => .other
  else if method = "item/started" ∨ method = "item/completed" then
    heardItem (params.index "item") (method = "item/completed")
  else .other

/-- A notification of the thread: an item of a known command in the turn of the command, or one of the
running turn. -/
def heardNotification (a : Traex) (method : String) (params : Json) : Heard :=
  match a.observedCommand method (params.index "item") with
  | some command =>
    if (params.index "turnId").str? = some command.turn then heardItem (params.index "item") true
    else .other
  | none =>
    if (a.phase ≠ .running ∧ a.phase ≠ .starting) ∨ (params.index "turnId").str? = none ∨
        (params.index "turnId").str? ≠ a.turn then .other
    else heardOfTurn method params

def heard (a : Traex) : Input → Heard
  | .message (some m) =>
    if (m.get? "method").isSome ∧ (m.get? "id").isNone ∧
        ((m.index "params").index "threadId").str? = a.thread then
      a.heardNotification ((m.index "method").str?.getD "") (m.index "params")
    else .other
  | _ => .other

/-! ## What one input does -/

/-- A tool call that was not shown yet. -/
def Unseen (a : Traex) (id : String) : Prop :=
  id ∉ a.tools ∧ (a.backgroundCommands.lookup id).isNone = true

instance (a : Traex) (id : String) : Decidable (a.Unseen id) := inferInstanceAs (Decidable (_ ∧ _))

/-- The end of a command, with the process that exited. -/
def exited (x : Json) : Option String :=
  if (x.index "exitCode").i64?.isSome then commandProcess x else none

/-- The commands that are still in the background when one has ended: those of the process that exited
went with it. -/
def released (a : Traex) (id : String) (x : Json) : List (String × BackgroundCommand) :=
  (drop id a.backgroundCommands).filter fun p => (exited x).isNone || p.2.process ≠ exited x

/-- The commands in the background after an item. -/
def commandsAfter (a : Traex) (id : String) (x : Json) (completed : Bool) :
    List (String × BackgroundCommand) :=
  let status := (x.index "status").str?
  if completed = true ∧ (x.index "type").str? = some "commandExecution" then
    if status = some "backgrounded" then
      let known := a.backgroundCommands.lookup id
      put id {
        turn := ((known.map (·.turn)).or a.turn).getD ""
        process := (commandProcess x).or (known.bind (·.process)) } a.backgroundCommands
    else if status ∈ [some "completed", some "failed"] then a.released id x
    else a.backgroundCommands
  else a.backgroundCommands

/-- What a message does to the items: the tool calls and the texts it shows. -/
inductive Does (a : Traex) : Heard → List String → List String → Desk → Prop
  | other : Does a .other [] [] a.desk
  | delta {id text} : Does a (.delta id text) [] [text]
      { a.desk with streamed := a.streamed.insert id }
  | whole {id text} : Does a (.whole id text) [] (if id ∈ a.streamed then [] else [text])
      { a.desk with streamed := a.streamed.insert id }
  | tool {id x completed} : Does a (.tool id x completed) (if a.Unseen id then [id] else []) []
      { a.desk with
        tools := if a.Unseen id then a.tools.insert id else a.tools
        commands := a.commandsAfter id x completed }

/-- Nothing of items is shown, and either nothing is changed or what the turn has shown is forgotten,
as a turn starts or ends. -/
def Passes (a : Traex) (out : List Action) (a' : Traex) : Prop :=
  out.filterMap toolOf = [] ∧ out.filterMap textOf = [] ∧
    ((a'.desk = a.desk ∧ out.any Action.isFinished = false) ∨
      (a'.desk = { a.desk with streamed := [], tools := [] } ∧
        (out.any Action.startsTurn = true ∨ out.any Action.isFinished = true)))

/-- All that one accepted input does to the items, by what is heard of them. -/
def Items (a : Traex) (h : Heard) (out : List Action) (a' : Traex) : Prop :=
  (a.Does h (out.filterMap toolOf) (out.filterMap textOf) a'.desk ∧
      out.any Action.isFinished = false) ∨
    (h = .other ∧ a.Passes out a')

/-- Actions that show no item and end no turn. -/
def Unshown (out : List Action) : Prop :=
  ∀ x ∈ out, toolOf x = none ∧ textOf x = none ∧ x.isFinished = false

/-- A program that leaves the items alone. -/
abbrev Still {β : Type} (m : Step β) (Q : β → Prop) : Prop := Leaves desk m Q

variable {a a' : Traex} {i : Input} {out more : List Action}

theorem unshown_nil : Unshown [] := fun _ hx => absurd hx List.not_mem_nil

theorem unshown_cons {x : Action} (h : toolOf x = none ∧ textOf x = none ∧ x.isFinished = false)
    (hout : Unshown out) : Unshown (x :: out) := by
  intro y hy
  rcases List.mem_cons.1 hy with rfl | hy
  · exact h
  · exact hout y hy

theorem unshown_append (h : Unshown out) (hm : Unshown more) : Unshown (out ++ more) := fun x hx =>
  (List.mem_append.1 hx).elim (h x) (hm x)

theorem Unshown.tools (h : Unshown out) : out.filterMap toolOf = [] :=
  List.filterMap_eq_nil_iff.2 fun x hx => (h x hx).1

theorem Unshown.texts (h : Unshown out) : out.filterMap textOf = [] :=
  List.filterMap_eq_nil_iff.2 fun x hx => (h x hx).2.1

theorem Unshown.unfinished (h : Unshown out) : out.any Action.isFinished = false := by
  rw [List.any_eq_false]
  intro x hx
  simp [(h x hx).2.2]

theorem Unshown.passes (h : Unshown out) (hd : a'.desk = a.desk) : a.Passes out a' :=
  ⟨h.tools, h.texts, .inl ⟨hd, h.unfinished⟩⟩

/-- What a program that hears of no item does. -/
abbrev Passing (m : Step (List Action)) (a : Traex) : Prop := Answers m a a.Passes

theorem Still.passing {m : Step (List Action)} (h : Still m Unshown) : Passing m a :=
  wp_mono (h a) (fun _ _ ⟨hout, hb⟩ => hout.passes hb) fun _ _ _ => trivial

theorem Passing.items {m : Step (List Action)} {h : Heard} (hm : Passing m a) (hh : h = .other) :
    Answers m a (a.Items h) :=
  wp_mono hm (fun _ _ hp => .inr ⟨hh, hp⟩) fun _ _ _ => trivial

/-! ## Items -/

theorem addChild_still (child : String) : Still (addChild child) fun _ => True :=
  .bind .current fun _ _ => .bind .bailIf fun _ _ => .update fun _ => rfl

theorem trackChildren_still (x : Json) : Still (trackChildren x) fun _ => True := by
  refine .bind (.forEach (fun _ => .bind .orError fun _ _ => addChild_still _) _) fun _ _ => ?_
  refine .forEach (fun p => ?_) _
  exact .ite (.update fun _ => rfl) (addChild_still _)

/-- What a program shows of items, and the desk it leaves; it ends no turn. -/
abbrev Shows (p : Step (List Action)) (a : Traex) (Q : List String → List String → Desk → Prop) : Prop :=
  wp p (fun out b => Q (out.filterMap toolOf) (out.filterMap textOf) b.desk ∧
    out.any Action.isFinished = false) (fun _ _ => True) a

theorem agentMessage_shows {x : Json} {id : String} (completed : Bool) :
    Shows (agentMessage x id completed) a (a.Does
      (if completed then .whole id ((x.index "text").str?.getD "") else .other)) := by
  refine wp_bind.2 (wp_current.2 (wp_ite.2 ⟨fun ⟨hcompleted, hnew⟩ => ?_, fun hnot => ?_⟩))
  · refine wp_bind.2 (wp_orError.2 ⟨fun text htext => ?_, fun _ => trivial⟩)
    refine wp_bind.2 (wp_bailIf.2 ⟨fun _ => trivial, fun _ => wp_bind.2 (wp_update.2 (wp_pure.2 ?_))⟩)
    rw [if_pos hcompleted, htext]
    have h : a.Does (.whole id text) _ _ _ := .whole
    rw [if_neg hnew] at h
    exact ⟨h, rfl⟩
  · refine wp_pure.2 ⟨?_, rfl⟩
    by_cases hcompleted : completed = true
    · have hmem : id ∈ a.streamed := by
        by_contra hnew
        exact hnot ⟨hcompleted, hnew⟩
      have h : a.Does (.whole id ((x.index "text").str?.getD "")) _ _ _ := .whole
      rw [if_pos hmem, List.insert_of_mem hmem] at h
      rw [if_pos hcompleted]
      exact h
    · rw [if_neg hcompleted]
      exact .other

theorem toolStarted_shows {x : Json} {kind id name : String} :
    Shows (toolStarted x kind id name) a fun tools texts d =>
      tools = (if a.Unseen id then [id] else []) ∧ texts = [] ∧
        d = { a.desk with tools := if a.Unseen id then a.tools.insert id else a.tools } := by
  refine wp_bind.2 (wp_current.2 (wp_ite.2 ⟨fun hnew => ?_, fun hseen => wp_pure.2 ?_⟩))
  · refine wp_bind.2 (wp_bailIf.2 ⟨fun _ => trivial, fun _ => wp_bind.2 (wp_update.2 (wp_pure.2 ?_))⟩)
    have hunseen : a.Unseen id := hnew
    rw [if_pos hunseen, if_pos hunseen]
    exact ⟨⟨rfl, rfl, rfl⟩, rfl⟩
  · have hunseen : ¬a.Unseen id := hseen
    rw [if_neg hunseen, if_neg hunseen]
    exact ⟨⟨rfl, rfl, rfl⟩, rfl⟩

theorem releaseCommand_shows {x : Json} {id : String} :
    wp (releaseCommand x id) (fun _ b => b.desk = { a.desk with
      commands := if (x.index "status").str? ∈ [some "completed", some "failed"] then a.released id x
        else a.backgroundCommands }) (fun _ _ => True) a := by
  refine wp_ite.2 ⟨fun h => ?_, fun h => wp_pure.2 ?_⟩
  swap
  · rw [if_neg h]
    rfl
  refine wp_bind.2 (wp_update.2 (wp_ite.2 ⟨fun hexit => wp_update.2 ?_, fun hexit => wp_pure.2 ?_⟩))
  · have hex : exited x = commandProcess x := if_pos hexit.2
    have hfilter : a.released id x =
        (drop id a.backgroundCommands).filter (·.2.process ≠ commandProcess x) := by
      refine List.filter_congr fun p _ => ?_
      obtain ⟨q, hq⟩ := Option.isSome_iff_exists.1 hexit.1
      rw [hex, hq]
      rfl
    rw [if_pos h, hfilter]
    rfl
  · have hex : exited x = none := by
      unfold exited
      split
      · rename_i hcode
        by_contra hne
        exact hexit ⟨Option.ne_none_iff_isSome.1 hne, hcode⟩
      · rfl
    have hfilter : a.released id x = drop id a.backgroundCommands := by
      refine List.filter_eq_self.2 fun p _ => ?_
      rw [hex]
      rfl
    rw [if_pos h, hfilter]
    rfl

theorem toolCompleted_shows {x : Json} {kind id : String} (hkind : (x.index "type").str? = some kind) :
    Shows (toolCompleted x kind id) a fun tools texts d =>
      tools = [] ∧ texts = [] ∧ d = { a.desk with commands := a.commandsAfter id x true } := by
  have hcommand : kind = "commandExecution" ↔ (x.index "type").str? = some "commandExecution" := by
    rw [hkind, Option.some.injEq]
  refine wp_ite.2 ⟨fun ⟨hk, hstatus⟩ => ?_, fun hnot => ?_⟩
  · refine wp_bind.2 (wp_current.2 (wp_bind.2 (wp_bailIf.2 ⟨fun _ => trivial, fun _ => ?_⟩)))
    refine wp_bind.2 (wp_orError.2 ⟨fun turn hturn => ?_, fun _ => trivial⟩)
    refine wp_bind.2 (wp_update.2 (wp_pure.2 ⟨⟨rfl, rfl, ?_⟩, rfl⟩))
    have hafter : a.commandsAfter id x true = put id
        { turn, process := (commandProcess x).or ((a.backgroundCommands.lookup id).bind (·.process)) }
        a.backgroundCommands := by
      rw [commandsAfter, if_pos ⟨rfl, hcommand.1 hk⟩, if_pos hstatus]
      simp only [hturn, Option.getD_some]
    rw [hafter]
    rfl
  · refine wp_bind.2 (wp_bailIf.2 ⟨fun _ => trivial, fun _ => wp_bind.2 ?_⟩)
    refine wp_ite.2 ⟨fun hk => ?_, fun hk => wp_pure.2 (wp_pure.2 ⟨⟨rfl, rfl, ?_⟩, rfl⟩)⟩
    · refine wp_mono releaseCommand_shows (fun _ b hb => wp_pure.2 ⟨⟨rfl, rfl, ?_⟩, rfl⟩) fun _ _ _ => trivial
      rw [commandsAfter, if_pos ⟨rfl, hcommand.1 hk⟩, if_neg fun hstatus => hnot ⟨hk, hstatus⟩]
      exact hb
    · rw [commandsAfter, if_neg fun h => hk (hcommand.2 h.2)]
      rfl

theorem isTool_of_toolName {x : Json} {kind name : String} (h : toolName x kind = .ok (some name)) :
    isTool kind = true := by
  unfold toolName at h
  split at h
  all_goals first | rfl | cases h

theorem not_isTool_of_toolName {x : Json} {kind : String} (h : toolName x kind = .ok none) :
    isTool kind = false := by
  unfold toolName at h
  split at h
  case h_4 =>
    rcases hf : field x "tool" with _ | _ <;> rw [hf] at h <;> cases h
  case h_7 => simp_all [isTool]
  all_goals cases h

theorem unseen_congr {b : Traex} {id : String} (h : b.desk = a.desk) : b.Unseen id = a.Unseen id := by
  unfold Unseen
  rw [show b.tools = a.tools from congrArg Desk.tools h,
    show b.backgroundCommands = a.backgroundCommands from congrArg Desk.commands h]

theorem commandsAfter_congr {b : Traex} {id : String} {x : Json} {completed : Bool}
    (hc : b.backgroundCommands = a.backgroundCommands) (ht : b.turn = a.turn) :
    b.commandsAfter id x completed = a.commandsAfter id x completed := by
  simp only [commandsAfter, released, hc, ht]

/-- An item, as it is heard. -/
theorem item_shows {x : Json} {completed : Bool} :
    Shows (item x completed) a (a.Does (heardItem x completed)) := by
  refine wp_bind.2 (wp_lift.2 ⟨fun kind hkind => ?_, fun _ _ => trivial⟩)
  refine wp_bind.2 (wp_lift.2 ⟨fun id hid => ?_, fun _ _ => trivial⟩)
  have hkind : (x.index "type").str? = some kind := field_str hkind
  have hid : (x.index "id").str? = some id := field_str hid
  rw [heardItem, hkind, hid]
  dsimp only
  refine wp_ite.2 ⟨fun hreasoning => wp_pure.2 ⟨?_, rfl⟩, fun _ => wp_ite.2 ⟨fun hmessage => ?_, fun hmessage => ?_⟩⟩
  · rw [if_neg (by simp [hreasoning]), if_neg (by simp [hreasoning, isTool])]
    exact .other
  · rw [if_pos hmessage]
    exact agentMessage_shows completed
  rw [if_neg hmessage]
  refine wp_bind.2 (wp_lift.2 ⟨fun name hname => ?_, fun _ _ => trivial⟩)
  rcases name with _ | name
  · rw [if_neg (by simp [not_isTool_of_toolName hname])]
    exact ⟨.other, rfl⟩
  rw [if_pos (isTool_of_toolName hname)]
  -- the children of an agent tool are no part of the desk
  have hchildren := wp_and ((Leaves.when (trackChildren_still x)) a)
    (Idle.alike (.when (c := kind = "collabAgentToolCall") (trackChildren_idle x)) a)
  refine wp_bind.2 (wp_mono hchildren (fun _ b ⟨⟨_, hb⟩, _, hab⟩ => ?_) fun _ _ _ => trivial)
  refine wp_bind.2 (wp_mono (wp_and toolStarted_shows ((toolStarted_idle x kind id name).alike b))
    (fun started c ⟨⟨⟨htools, htexts, hc⟩, hends⟩, _, hbc⟩ => ?_) fun _ _ _ => trivial)
  have hunseen : b.Unseen id = a.Unseen id := unseen_congr hb
  simp only [hunseen, show b.tools = a.tools from congrArg Desk.tools hb, hb] at htools hc
  have hcommands : c.commandsAfter id x completed = a.commandsAfter id x completed := by
    refine commandsAfter_congr ?_ (congrArg Turns.turn (hab.trans hbc).1)
    exact congrArg Desk.commands hc
  refine wp_ite.2 ⟨fun hcompleted => ?_, fun hcompleted => wp_pure.2 ⟨?_, hends⟩⟩
  · subst hcompleted
    refine wp_bind.2 (wp_mono (toolCompleted_shows hkind) (fun ended d ⟨⟨htools', htexts', hd⟩, hends'⟩ => ?_)
      fun _ _ _ => trivial)
    refine wp_pure.2 ⟨?_, by rw [List.any_append, hends, hends', Bool.or_false]⟩
    rw [List.filterMap_append, List.filterMap_append, htools, htexts, htools', htexts', hd, hcommands, hc,
      List.append_nil]
    exact .tool
  · have hnone : a.commandsAfter id x completed = a.backgroundCommands := if_neg fun h => hcompleted h.1
    have h : a.Does (.tool id x completed) _ _ _ := .tool
    rw [hnone] at h
    rw [htools, htexts, hc]
    exact h

/-! ## Turns -/

theorem ends_passes {c : Prop} [Decidable c] {inputs : List String} {isError : Bool}
    {message : Option String} {out : List Action}
    (hout : out = (if c then [.inputsConsumed inputs] else []) ++ [.finished isError message])
    (hd : a'.desk = { a.desk with streamed := [], tools := [] }) : a.Passes out a' := by
  subst hout
  refine ⟨?_, ?_, .inr ⟨hd, .inr ?_⟩⟩ <;> split <;> rfl

theorem turnCompleted_passes (turn : Json) : Passing (turnCompleted turn) a := by
  refine wp_bind.2 (wp_lift.2 ⟨fun status _ => ?_, fun _ _ => trivial⟩)
  refine wp_bind.2 (wp_bailIf.2 ⟨fun _ => trivial, fun _ => wp_bind.2 (wp_update.2 ?_)⟩)
  exact wp_bind.2 (wp_current.2 (wp_bind.2 (wp_update.2 (wp_pure.2 (ends_passes rfl rfl)))))

theorem delta_items {params : Json} : Answers (turnNotification "item/agentMessage/delta" params) a
    (a.Items (heardOfTurn "item/agentMessage/delta" params)) := by
  refine wp_ite.2 ⟨fun _ => ?_, fun h => absurd rfl h⟩
  refine wp_bind.2 (wp_lift.2 ⟨fun id hid => ?_, fun _ _ => trivial⟩)
  refine wp_bind.2 (wp_current.2 (wp_bind.2 (wp_bailIf.2 ⟨fun _ => trivial, fun _ => ?_⟩)))
  refine wp_bind.2 (wp_update.2 (wp_bind.2 (wp_orError.2 ⟨fun text htext => ?_, fun _ => trivial⟩)))
  have hheard : heardOfTurn "item/agentMessage/delta" params = .delta id text := by
    rw [heardOfTurn, if_pos rfl, field_str hid, htext]
  rw [hheard]
  exact .inl ⟨.delta, rfl⟩

theorem turnNotification_items {method : String} {params : Json} :
    Answers (turnNotification method params) a (a.Items (heardOfTurn method params)) := by
  by_cases hdelta : method = "item/agentMessage/delta"
  · rw [hdelta]
    exact delta_items
  unfold turnNotification heardOfTurn
  rw [if_neg hdelta, if_neg hdelta]
  refine wp_ite.2 ⟨fun hthinking => wp_pure.2 ?_, fun _ => wp_ite.2 ⟨fun hitem => ?_, fun hitem => ?_⟩⟩
  · rw [if_neg (by rcases hthinking with rfl | rfl <;> decide)]
    exact .inl ⟨.other, rfl⟩
  · rw [if_pos hitem]
    exact wp_mono item_shows (fun _ _ h => .inl h) fun _ _ _ => trivial
  · rw [if_neg hitem]
    refine wp_ite.2 ⟨fun _ => (turnCompleted_passes _).items rfl, fun _ => wp_ite.2 ⟨fun _ => trivial, fun _ => ?_⟩⟩
    exact .inl ⟨.other, rfl⟩

/-- Any other notification is heard as no item. -/
theorem heardNotification_other {method : String} {params : Json}
    (h : method ∉ ["item/agentMessage/delta", "item/started", "item/completed"]) :
    a.heardNotification method params = .other := by
  simp only [List.mem_cons, List.not_mem_nil, or_false, not_or] at h
  obtain ⟨hdelta, hstarted, hcompleted⟩ := h
  have hnone : a.observedCommand method (params.index "item") = none :=
    if_neg fun h => hcompleted h.1
  rw [heardNotification, hnone]
  dsimp only
  rw [heardOfTurn, if_neg hdelta, if_neg (not_or.2 ⟨hstarted, hcompleted⟩), ite_self]

theorem afterAdmission_completed {m : Json} (h : (m.index "method").str?.getD "" = "turn/completed") :
    Passing (afterAdmission m) a := by
  have hnone : a.observedCommand "turn/completed" ((m.index "params").index "item") = none :=
    if_neg fun h => absurd h.1 (by decide)
  refine wp_bind.2 (wp_current.2 ?_)
  rw [h, hnone]
  dsimp only
  rw [turnNotification_completed]
  exact wp_ite.2 ⟨fun _ => unshown_nil.passes rfl, fun _ => turnCompleted_passes _⟩

theorem afterAdmission_items {m : Json} : Answers (afterAdmission m) a
    (a.Items (a.heardNotification ((m.index "method").str?.getD "") (m.index "params"))) := by
  by_cases hmethod : (m.index "method").str?.getD "" = "turn/completed"
  · refine (afterAdmission_completed hmethod).items ?_
    rw [hmethod]
    exact heardNotification_other (by decide)
  refine wp_bind.2 (wp_current.2 ?_)
  rw [heardNotification, notifiedTurn, if_neg hmethod]
  generalize a.observedCommand _ _ = observed
  rcases observed with _ | command
  · refine wp_ite.2 ⟨fun hother => ?_, fun hown => ?_⟩
    · dsimp only
      rw [if_pos hother]
      exact .inl ⟨.other, rfl⟩
    · dsimp only
      rw [if_neg hown]
      exact turnNotification_items
  · refine wp_ite.2 ⟨fun hown => ?_, fun hother => ?_⟩
    · dsimp only
      rw [if_pos hown]
      exact wp_mono item_shows (fun _ _ h => .inl h) fun _ _ _ => trivial
    · dsimp only
      rw [if_neg hother]
      exact .inl ⟨.other, rfl⟩

/-! ## Requests and answers -/

theorem request_still (m : Method) (params : Json) : Still (request m params) fun x => Unshown [x] := by
  refine .bind .current fun _ _ => .bind .bailIf fun _ _ => .bind .bailIf fun _ _ => ?_
  refine .bind (.update fun _ => rfl) fun _ _ => .pure ?_
  exact unshown_cons ⟨rfl, rfl, rfl⟩ unshown_nil

theorem requesting_still (m : Method) (params : Json) :
    Still (do let x ← request m params; pure [x]) Unshown :=
  .bind (request_still m params) fun _ hx => .pure hx

theorem initializeServer_still : Still initializeServer Unshown :=
  .bind (.update fun _ => rfl) fun _ _ => requesting_still _ _

theorem steer_still (r prompt : String) : Still (steer r prompt) Unshown := by
  refine .bind .current fun _ _ => .bind .bailIf fun _ _ => .bind .bailIf fun _ _ => ?_
  refine .bind .bailIf fun _ _ => .bind (request_still _ _) fun _ hx => ?_
  exact .bind (.update fun _ => rfl) fun _ _ => .pure hx

theorem interrupt_still : Still interrupt Unshown := by
  refine .bind .current fun a _ => ?_
  rcases a.turn with _ | turn
  · refine .ite (.bind (.update fun _ => rfl) fun _ _ => .pure unshown_nil) (.pure ?_)
    exact unshown_cons ⟨rfl, rfl, rfl⟩ unshown_nil
  · exact requesting_still _ _

theorem openThread_still : Still openThread Unshown := by
  refine .bind .current fun _ _ => .bind .orError fun _ _ => .bind .lift fun _ _ => ?_
  exact requesting_still _ _

theorem nativeRequest_still (m : Json) : Still (nativeRequest m) Unshown := by
  refine .bind .current fun a _ => .ite (.pure (unshown_cons ⟨rfl, rfl, rfl⟩ unshown_nil)) ?_
  split
  · refine .bind .bailIf fun _ _ => .bind (.update fun _ => rfl) fun _ _ => ?_
    exact .pure (unshown_cons ⟨rfl, rfl, rfl⟩ unshown_nil)
  · refine .ite (.bind .lift fun _ _ => ?_) (.pure (unshown_cons ⟨rfl, rfl, rfl⟩ unshown_nil))
    exact .pure (unshown_cons ⟨rfl, rfl, rfl⟩ unshown_nil)

theorem keepCompletion_still (m : Json) : Still (keepCompletion m) Unshown := by
  refine .bind .current fun _ _ => .bind .lift fun _ _ => .bind .bailIf fun _ _ => ?_
  exact .bind (.update fun _ => rfl) fun _ _ => .pure unshown_nil

theorem refused_still (r : PendingRequest) (error : Json) : Still (refused r error) Unshown := by
  unfold refused
  rcases r.queuedInput with _ | q
  · refine .bind .current fun _ _ => .ite (.pure (unshown_cons ⟨rfl, rfl, rfl⟩ unshown_nil)) (.ite ?_ .fail)
    exact .bind (.update fun _ => rfl) fun _ _ => .pure (unshown_cons ⟨rfl, rfl, rfl⟩ unshown_nil)
  · exact .pure (unshown_cons ⟨rfl, rfl, rfl⟩ unshown_nil)

theorem steerAnswered_still (r turn : String) (result : Json) :
    Still (steerAnswered r turn result) Unshown := by
  refine .bind .bailIf fun _ _ => .bind .current fun a _ => .ite ?_ (.ite (.pure ?_) .fail)
  · exact .bind (.update fun _ => rfl) fun _ _ => .pure unshown_nil
  · split
    · exact unshown_cons ⟨rfl, rfl, rfl⟩ unshown_nil
    · exact unshown_nil

theorem initialized_still : Still initialized Unshown := by
  refine .bind .current fun _ _ => .ite (.pure (unshown_cons ⟨rfl, rfl, rfl⟩ unshown_nil)) ?_
  refine .bind .bailIf fun _ _ => .bind (.update fun _ => rfl) fun _ _ => ?_
  refine .bind (.ite openThread_still ?_) fun next hnext => .pure (unshown_cons ⟨rfl, rfl, rfl⟩ hnext)
  exact .bind .current fun _ _ => requesting_still _ _

theorem configRead_still (result : Json) : Still (configRead result) Unshown := by
  refine .bind (.update fun _ => rfl) fun _ _ => .bind .current fun _ _ => ?_
  refine .bind (.when (.bind .orError fun _ _ => .update fun _ => rfl)) fun _ _ => ?_
  exact .bind (.update fun _ => rfl) fun _ _ => openThread_still

theorem nameThread_still (thread : String) (title : Option String) :
    Still (nameThread thread title) Unshown := by
  rcases title with _ | title
  · exact .pure unshown_nil
  · exact .bind (.update fun _ => rfl) fun _ _ => requesting_still _ _

/-- The start of a turn forgets what the last one has shown. -/
theorem start_passes (prompt : String) : Passing (start prompt) a := by
  refine wp_bind.2 (wp_bailIf.2 ⟨fun _ => trivial, fun _ => wp_bind.2 (wp_update.2 ?_)⟩)
  refine wp_bind.2 (wp_current.2 (wp_bind.2 (wp_orError.2 ⟨fun config _ => wp_bind.2 ?_, fun _ => trivial⟩)))
  refine wp_bind.2 (wp_current.2 (wp_bind.2 (wp_bailIf.2 ⟨fun _ => trivial, fun _ => ?_⟩)))
  refine wp_bind.2 (wp_bailIf.2 ⟨fun _ => trivial, fun _ => wp_bind.2 (wp_update.2 (wp_pure.2 ?_))⟩)
  exact wp_pure.2 ⟨rfl, rfl, .inr ⟨rfl, .inl rfl⟩⟩

/-- More is answered that shows no item and ends no turn. -/
theorem Passes.surround {before after : List Action} (h : a.Passes out a') (hb : Unshown before)
    (ha : Unshown after) : a.Passes (before ++ out ++ after) a' := by
  obtain ⟨htools, htexts, hd⟩ := h
  refine ⟨?_, ?_, ?_⟩
  · rw [List.filterMap_append, List.filterMap_append, hb.tools, htools, ha.tools]
    rfl
  · rw [List.filterMap_append, List.filterMap_append, hb.texts, htexts, ha.texts]
    rfl
  · rw [List.any_append, List.any_append, hb.unfinished, ha.unfinished, Bool.false_or, Bool.or_false]
    refine hd.imp_right (And.imp_right (Or.imp_left fun hs => ?_))
    rw [List.any_append, List.any_append, hs, Bool.or_true, Bool.true_or]

theorem Passes.after {b : Traex} (h : b.Passes out a') (hb : b.desk = a.desk) : a.Passes out a' := by
  unfold Passes at h ⊢
  rwa [hb] at h

theorem Passes.then {b : Traex} (h : a.Passes out b) (hb : a'.desk = b.desk) : a.Passes out a' := by
  unfold Passes at h ⊢
  rwa [hb]

theorem threadOpened_passes (result : Json) : Passing (threadOpened result) a := by
  refine wp_bind.2 (wp_lift.2 ⟨fun thread _ => ?_, fun _ _ => trivial⟩)
  refine wp_bind.2 (wp_current.2 (wp_bind.2 (wp_bailIf.2 ⟨fun _ => trivial, fun _ => ?_⟩)))
  refine wp_bind.2 (wp_update.2 (wp_bind.2 ?_))
  refine wp_mono (nameThread_still _ _ _) (fun renamed b ⟨hrenamed, hb⟩ => ?_) fun _ _ _ => trivial
  have hready : Unshown ([.ready] ++ renamed) := unshown_cons ⟨rfl, rfl, rfl⟩ hrenamed
  refine wp_bind.2 (wp_update.2 (wp_bind.2 ?_))
  rcases a.pendingPrompt with _ | prompt
  · refine wp_pure.2 (wp_pure.2 (Unshown.passes ?_ hb))
    exact unshown_append hready unshown_nil
  · refine wp_mono (start_passes prompt) (fun started c hc => wp_pure.2 ?_) fun _ _ _ => trivial
    have h := (hc.after hb).surround hready unshown_nil
    rwa [List.append_nil] at h

theorem replay_passes {m : Option Json}
    (hm : ∀ x, m = some x → (x.index "method").str?.getD "" = "turn/completed") :
    Passing (replay m) a := by
  rcases m with _ | m
  · exact unshown_nil.passes rfl
  · refine wp_bind.2 (wp_current.2 (wp_ite.2 ⟨fun _ => unshown_nil.passes rfl, fun _ => ?_⟩))
    exact afterAdmission_completed (hm m rfl)

theorem admitTurn_passes {turn : Json} (hs : a.turns.Sound) : Passing (admitTurn turn) a := by
  refine wp_bind.2 (wp_lift.2 ⟨fun id _ => ?_, fun _ _ => trivial⟩)
  refine wp_bind.2 (wp_update.2 (wp_bind.2 (wp_current.2 (wp_bind.2 (wp_orError.2 ⟨?_, fun _ => trivial⟩)))))
  intro thread _
  refine wp_bind.2 (wp_update.2 (wp_bind.2 (wp_mono (replay_passes fun m hlook => ?_)
    (fun replayed b hb => ?_) fun _ _ _ => trivial)))
  · have hmeans := hs.earlyMeans id m (mem_of_lookup hlook)
    by_contra hne
    have hc : ¬isCompletion m := fun hc => hne (by
      rw [show (m.index "method").str? = some "turn/completed" from hc]
      rfl)
    rw [completionOf_other (.inl hc)] at hmeans
    cases hmeans
  refine wp_bind.2 (wp_current.2 (wp_bind.2 (wp_update.2 (wp_bind.2 ?_))))
  have hend : Still (if b.interruptRequested then interrupt else pure []) Unshown :=
    .ite interrupt_still (.pure unshown_nil)
  refine wp_mono (hend _) (fun rest c ⟨hrest, hc⟩ => wp_pure.2 ?_) fun _ _ _ => trivial
  exact ((hb.after rfl).then hc).surround (unshown_cons ⟨rfl, rfl, rfl⟩ unshown_nil) hrest

theorem notification_items {m : Json} (hs : a.turns.Sound) :
    Answers (notification m) a (a.Items
      (if ((m.index "params").index "threadId").str? = a.thread then
        a.heardNotification ((m.index "method").str?.getD "") (m.index "params")
      else .other)) := by
  refine wp_bind.2 (wp_current.2 (wp_ite.2 ⟨fun hthread => ?_, fun hthread => ?_⟩))
  · rw [if_neg hthread]
    exact .inl ⟨.other, rfl⟩
  rw [if_pos (not_not.1 hthread)]
  refine wp_bind.2 (wp_current.2 (wp_ite.2 ⟨fun hname => ?_, fun _ => wp_ite.2 ⟨fun hstart => ?_,
    fun _ => wp_ite.2 ⟨fun hearly => ?_, fun _ => afterAdmission_items⟩⟩⟩))
  · refine Passing.items (Still.passing (.pure fun x hx => ?_))
      (heardNotification_other (by rw [hname]; decide))
    obtain ⟨_, _, rfl⟩ := List.mem_map.1 hx
    exact ⟨rfl, rfl, rfl⟩
  · exact (admitTurn_passes hs).items (heardNotification_other (by rw [hstart.1]; decide))
  · exact (keepCompletion_still m).passing.items (heardNotification_other (by rw [hearly.1]; decide))

theorem answered_passes {method : Method} {result : Json} (hs : a.turns.Sound) :
    Passing (answered method result) a := by
  cases method with
  | initializing => exact initialized_still.passing
  | configRead => exact (configRead_still result).passing
  | threadStart => exact threadOpened_passes result
  | threadResume => exact threadOpened_passes result
  | turnStart =>
    exact wp_bind.2 (wp_current.2 (wp_ite.2 ⟨fun _ => admitTurn_passes hs, fun _ => unshown_nil.passes rfl⟩))
  | turnInterrupt => exact (unshown_cons ⟨rfl, rfl, rfl⟩ unshown_nil).passes rfl
  | threadNameSet =>
    refine wp_bind.2 (wp_current.2 (wp_bind.2 (wp_update.2 (wp_pure.2 (Unshown.passes (fun x hx => ?_) rfl)))))
    obtain ⟨_, _, rfl⟩ := List.mem_map.1 hx
    exact ⟨rfl, rfl, rfl⟩
  | turnSteer => trivial

theorem response_passes {m : Json} (hs : a.turns.Sound) (hw : a.Wires) : Passing (response m) a := by
  refine wp_bind.2 (wp_current.2 ?_)
  rcases hfound : a.answeredBy m with _ | ⟨n, request⟩
  · exact unshown_nil.passes rfl
  have hmem : (n, request) ∈ a.pending := by
    obtain ⟨id, _, hfind⟩ := Option.bind_eq_some_iff.1 hfound
    exact List.mem_of_find?_eq_some hfind
  refine wp_bind.2 (wp_update.2 ?_)
  rcases m.get? "error" with _ | error
  · refine wp_bind.2 (wp_orError.2 ⟨fun result _ => ?_, fun _ => trivial⟩)
    rcases hq : request.queuedInput with _ | ⟨r, turn⟩
    · have hturns := turns_answered hw hmem hq
      exact wp_mono (answered_passes (by rw [hturns]; exact hs)) (fun _ _ h => h.after rfl)
        fun _ _ _ => trivial
    · exact wp_mono (steerAnswered_still r turn result).passing (fun _ _ h => h.after rfl)
        fun _ _ _ => trivial
  · exact wp_mono (refused_still request error).passing (fun _ _ h => h.after rfl) fun _ _ _ => trivial

/-- Every input, as it is heard; a refused one that the actor puts up with leaves the items alone. -/
theorem advance_items (hs : a.turns.Sound) (hw : a.Wires) (hserves : a.serves i = true) :
    wp (advance i) (fun out a' => a.Items (a.heard i) out a')
      (fun _ a' => i.lenient = true → a'.desk = a.desk) a := by
  have hfatal : ∀ {m : Step (List Action)} {Q : List Action → Traex → Prop}, i.lenient = false →
      Answers m a Q → wp m Q (fun _ a' => i.lenient = true → a'.desk = a.desk) a :=
    fun hi h => wp_mono h (fun _ _ h => h) fun _ _ _ hl => by simp [hi] at hl
  cases i with
  | «open» =>
    refine hfatal rfl (Passing.items (Still.passing ?_) rfl)
    exact .bind .current fun _ _ => .ite initializeServer_still .fail
  | discoverCommands =>
    refine hfatal rfl (Passing.items (Still.passing ?_) rfl)
    exact .bind (.update fun _ => rfl) fun _ _ => initializeServer_still
  | start prompt =>
    refine hfatal rfl (wp_bind.2 (wp_current.2 ?_))
    rcases a.phase
    case fresh =>
      refine Passing.items (Still.passing ?_) rfl
      exact .bind .bailIf fun _ _ => .bind (.update fun _ => rfl) fun _ _ => initializeServer_still
    case ready => exact (start_passes prompt).items rfl
    all_goals trivial
  | interrupt => exact hfatal rfl (interrupt_still.passing.items rfl)
  | queue r prompt uuid =>
    have hspec := @steer_spec a r prompt uuid hw (by simpa [serves] using hserves)
    refine wp_mono (wp_and (steer_still r prompt a) hspec) (fun out b h => ?_) ?_
    · obtain ⟨⟨hout, hb⟩, -⟩ := h
      exact .inr ⟨rfl, hout.passes hb⟩
    · rintro _ _ ⟨_, rfl⟩ _
      rfl
  | renameTitle id title =>
    refine wp_bind.2 (wp_current.2 (wp_bind.2 (wp_bailIf.2 ⟨fun _ _ => rfl, fun _ => ?_⟩)))
    refine wp_bind.2 (wp_update.2 (wp_bind.2 (wp_bind.2 (wp_current.2 (wp_bind.2 ?_)))))
    refine wp_bailIf.2 ⟨fun _ _ => rfl, fun _ => wp_bind.2 (wp_bailIf.2 ⟨fun _ _ => rfl, fun _ => ?_⟩)⟩
    refine wp_bind.2 (wp_update.2 (wp_pure.2 (wp_pure.2 (.inr ⟨rfl, Unshown.passes ?_ rfl⟩))))
    exact unshown_cons ⟨rfl, rfl, rfl⟩ unshown_nil
  | approval id input allow =>
    refine hfatal rfl (Passing.items (Still.passing ?_) rfl)
    refine .bind .current fun _ _ => .bind .orError fun p _ => .bind (.update fun _ => rfl) fun _ _ => ?_
    exact .pure (unshown_cons ⟨rfl, rfl, rfl⟩ unshown_nil)
  | questionAnswer id input questions answers =>
    refine hfatal rfl (Passing.items (Still.passing ?_) rfl)
    exact .bind .lift fun _ _ => .pure (unshown_cons ⟨rfl, rfl, rfl⟩ unshown_nil)
  | message line =>
    refine hfatal rfl (wp_bind.2 (wp_orError.2 ⟨fun m hm => ?_, fun _ => trivial⟩))
    obtain rfl : line = some m := hm
    by_cases hmethod : (m.get? "method").isSome = true
    · rw [if_pos hmethod]
      by_cases hid : (m.get? "id").isSome = true
      · rw [if_pos hid]
        refine (nativeRequest_still m).passing.items ?_
        rw [heard, if_neg]
        simp only [Option.isNone_iff_eq_none, not_and]
        rintro _ hnone
        simp [hnone] at hid
      · rw [if_neg hid]
        rw [Bool.not_eq_true, Option.isSome_eq_false_iff] at hid
        have hheard : a.heard (.message (some m)) =
            if ((m.index "params").index "threadId").str? = a.thread then
              a.heardNotification ((m.index "method").str?.getD "") (m.index "params")
            else .other := by
          rw [heard]
          simp only [hmethod, hid, true_and]
        rw [hheard]
        exact notification_items hs
    · rw [if_neg hmethod]
      refine (response_passes hs hw).items ?_
      rw [heard, if_neg fun h => hmethod h.1]

end Traex

end LatteWork
