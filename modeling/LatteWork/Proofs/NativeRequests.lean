import LatteWork.Agents.Registry
import LatteWork.Proofs.ActorRules

/-!
# Adapters and the requests of their agents

Which line of an agent is a request and which frame answers one. On the server's behalf an adapter
only writes requests and prompts; a line that is no request asks and answers nothing, one that is a
request does one of the two, and a decision of the user is one frame.
-/

namespace LatteWork

open Prog

/-- The native request that a frame answers: the one a control response of Claude names, or the one
whose id a frame of Traex without a method has. -/
def responds (frame : Json) : Option String :=
  if (frame.index "type").str? = some "control_response" then
    ((frame.index "response").index "request_id").str?
  else if (frame.get? "method").isNone then (frame.get? "id").map Json.render
  else none

/-- A frame that answers no request. -/
def Quiet (frame : Json) : Prop := responds frame = none

namespace Agent

/-- The id of the request that a line of the agent is. -/
def request : Agent → Json → Option String
  | claude _, m =>
    if Claude.kind m = "control_request" then some ((m.index "request_id").str?.getD "") else none
  | traex _, m =>
    if (m.get? "method").isSome ∧ (m.get? "id").isSome then some (m.index "id").render else none

end Agent

/-- Actions that ask and answer nothing. -/
def Muted (actions : List Action) : Prop := ∀ action ∈ actions, action.Mute Quiet

/-- The action by which an adapter takes up a request: the user is asked, or it is answered. -/
def Action.TakesUp (fits : Interaction → Prop) (r : String) : Action → Prop
  | .approval id _ _ input => id = r ∧ fits { nativeId := id, input, questions := none }
  | .question id _ input questions =>
    id = r ∧ fits { nativeId := id, input, questions := some questions }
  | .write frame => responds frame = some r
  | _ => False

/-- At most the last of some actions takes a request up. -/
def TakenUp (fits : Interaction → Prop) (r : String) (actions : List Action) : Prop :=
  Muted actions ∨
    ∃ before action, actions = before ++ [action] ∧ Muted before ∧ action.TakesUp fits r

theorem muted_nil : Muted [] := fun _ h => absurd h List.not_mem_nil

theorem muted_cons {action : Action} {rest : List Action} :
    Muted (action :: rest) ↔ action.Mute Quiet ∧ Muted rest := by
  simp [Muted]

theorem muted_append {l m : List Action} : Muted (l ++ m) ↔ Muted l ∧ Muted m := by
  simp only [Muted, List.mem_append]
  exact ⟨fun h => ⟨fun x hx => h x (.inl hx), fun x hx => h x (.inr hx)⟩,
    fun h x hx => hx.elim (h.1 x) (h.2 x)⟩

theorem muted_single {action : Action} (h : action.Mute Quiet) : Muted [action] :=
  muted_cons.2 ⟨h, muted_nil⟩

theorem muted_map {β : Type} {f : β → Action} (h : ∀ b, (f b).Mute Quiet) (l : List β) :
    Muted (l.map f) := by
  intro x hx
  obtain ⟨b, -, rfl⟩ := List.mem_map.1 hx
  exact h b

theorem muted_filterMap {β : Type} {f : β → Option Action}
    (h : ∀ b x, f b = some x → x.Mute Quiet) (l : List β) : Muted (l.filterMap f) := by
  intro x hx
  obtain ⟨b, -, hb⟩ := List.mem_filterMap.1 hx
  exact h b x hb

theorem muted_flatMap {β : Type} {f : β → List Action} (h : ∀ b, Muted (f b)) (l : List β) :
    Muted (l.flatMap f) := by
  intro x hx
  obtain ⟨b, -, hb⟩ := List.mem_flatMap.1 hx
  exact h b x hb

theorem muted_ite {c : Prop} [Decidable c] {l m : List Action} (hl : Muted l) (hm : Muted m) :
    Muted (if c then l else m) := by
  by_cases h : c
  · rwa [if_pos h]
  · rwa [if_neg h]

theorem takenUp_single {fits : Interaction → Prop} {r : String} {action : Action}
    (h : action.TakesUp fits r) : TakenUp fits r [action] :=
  .inr ⟨[], action, rfl, muted_nil, h⟩

/-- A program of an adapter, of which only what it returns is of interest. -/
abbrev Returns {σ β : Type} (m : Prog σ String β) (Q : β → Prop) : Prop := Gives (fun _ => True) m Q

namespace Returns

variable {σ β γ : Type} {m : Prog σ String β} {Q : β → Prop}

theorem after {f : β → Prog σ String γ} {R : γ → Prop} (hf : ∀ b, Returns (f b) R) :
    Returns (m >>= f) R :=
  Gives.bind (Gives.any m) fun b _ => hf b

theorem gather {f : γ → Prog σ String (List Action)} (h : ∀ x, Returns (f x) Muted) :
    ∀ l : List γ, Returns (gather f l) Muted
  | [] => Gives.pure muted_nil
  | x :: l => Gives.bind (h x) fun _ ho => Gives.bind (gather h l) fun _ hm =>
      Gives.pure (muted_append.2 ⟨ho, hm⟩)

end Returns

namespace Claude

open Returns

theorem quiet_request (id : String) (request : List (String × Json)) :
    Quiet (controlRequest id request) := rfl

theorem quiet_prompt (text : String) : Quiet (.obj (prompt text)) := rfl

theorem quiet_prompt_uuid (text uuid : String) :
    Quiet (.obj (prompt text ++ [("uuid", .str uuid)])) := rfl

/-- A response of Claude names the request it answers. -/
theorem responds_controlResponse (id : String) (response : Json) :
    responds (controlResponse id response) = some id := rfl

theorem responds_approval (id : String) (input : Json) (allow : Bool) :
    responds (approval id input allow) = some id := rfl

theorem responds_questionResponse {id : String} {input frame : Json} {questions : List UserQuestion}
    {answers : Option (List QuestionAnswer)}
    (h : questionResponse id input questions answers = .ok frame) : responds frame = some id := by
  cases answers with
  | none => exact Except.ok.inj h ▸ rfl
  | some answers =>
    obtain ⟨_, -, h⟩ := Fallible.bind_eq_ok.1 h
    obtain ⟨_, -, h⟩ := Fallible.bind_eq_ok.1 h
    obtain ⟨_, -, h⟩ := Fallible.bind_eq_ok.1 h
    exact Except.ok.inj h ▸ rfl

/-- Actions that only write quiet frames. -/
abbrev Calm (actions : List Action) : Prop := ∀ action ∈ actions, action.Calm Quiet

theorem calm_write {frame : Json} (h : Quiet frame) : Calm [.write frame] := by
  simpa [Calm, Action.Calm] using h

theorem advance_calm {i : Input} (hm : i.isMessage = false) (hd : i.isDecision = false) :
    Returns (advance i) Calm := by
  cases i with
  | message line => cases hm
  | discoverCommands | «open» =>
    exact after fun _ => after fun _ => after fun _ => Gives.pure (calm_write (quiet_request _ _))
  | renameTitle id title =>
    exact after fun _ => after fun _ => after fun _ => after fun _ =>
      Gives.pure (calm_write (quiet_request _ _))
  | interrupt =>
    exact after fun _ => Gives.ite (Gives.pure (by simp [Calm, Action.Calm]))
      (Gives.pure (calm_write (quiet_request _ _)))
  | queue requestId text uuid =>
    exact after fun _ => after fun _ => after fun _ => after fun _ => after fun _ => after fun _ =>
      Gives.pure (calm_write (quiet_prompt_uuid _ _))
  | start text =>
    exact after fun _ => Gives.ite
      (after fun _ => after fun _ => after fun _ => Gives.pure (calm_write (quiet_prompt _)))
      (after fun _ => after fun _ => Gives.pure (calm_write (quiet_request _ _)))
  | approval id input allow => cases hd
  | questionAnswer id input questions answers => cases hd

/-! ## Lines that are no requests -/

theorem mute_event (e : AgentEvent) : (Action.event e).Mute Quiet := trivial

theorem childDelta_mute (event : Json) (parent : String) : Returns (childDelta event parent) Muted := by
  refine after fun a => ?_
  split
  · exact Gives.ite (Gives.ite (after fun _ => Gives.pure muted_nil)
      (after fun _ => Gives.pure (muted_single trivial))) (Gives.pure muted_nil)
  · exact Gives.pure muted_nil

theorem childBlock_mute (native : Option String) (known streamed : Bool) (parent : String)
    (block : Json) : Muted (childBlock native known streamed parent block) := by
  unfold childBlock
  split_ifs with _ _ hk
  · exact muted_map (fun _ => by trivial) _
  · split
    · exact muted_cons.2 ⟨trivial, muted_cons.2 ⟨trivial, muted_single trivial⟩⟩
    · exact muted_nil
  · split
    · exact muted_single trivial
    · exact muted_nil
  · exact muted_nil

theorem childMessage_mute (m : Json) (parent : String) : Returns (childMessage m parent) Muted := by
  refine after fun a => Gives.ite (childDelta_mute _ _) (Gives.ite (after fun _ =>
    Gives.pure (muted_flatMap (childBlock_mute _ _ _ _) _)) (Gives.ite
    (Gives.pure (muted_filterMap (fun b x hx => ?_) _)) (Gives.pure muted_nil)))
  split_ifs at hx
  obtain ⟨_, -, rfl⟩ := Option.map_eq_some_iff.1 hx
  trivial

theorem titleReport_mute (id : String) (response : Json) : (titleReport id response).Mute Quiet := by
  unfold titleReport
  split_ifs
  · split <;> trivial
  · trivial

theorem titleGenerated_mute (m : Json) : Returns (titleGenerated m) Muted := by
  refine after fun a => after fun _ => ?_
  split
  · exact Gives.ite (Gives.pure muted_nil) (Gives.pure (muted_single (titleReport_mute _ _)))
  · exact Gives.pure muted_nil

theorem renamed_mute (requested : String) (response : Json) :
    Returns (renamed requested response) Muted :=
  after fun _ => Gives.ite (after fun _ => Gives.pure (muted_single trivial))
    (after fun _ => Gives.pure (muted_single trivial))

theorem titleChanged_mute (m : Json) : Returns (titleChanged m) Muted := by
  unfold titleChanged
  split
  · exact after fun _ => after fun _ => Gives.pure (muted_ite muted_nil (muted_single trivial))
  · exact Gives.pure muted_nil

theorem opened_mute (waiting : Option String) (catalog : Json) :
    Returns (opened waiting catalog) Muted := by
  refine after fun _ => after fun _ => after fun _ => ?_
  split
  · exact after fun _ => Gives.pure (muted_cons.2 ⟨trivial, muted_single (quiet_prompt _)⟩)
  · exact after fun _ => Gives.pure (muted_single trivial)

theorem initAnswered_mute (m : Json) : Returns (initAnswered m) Muted := by
  refine after fun a => after fun _ => ?_
  split
  · exact after fun _ => after fun _ => Gives.pure (muted_single trivial)
  · exact opened_mute _ _
  · exact opened_mute _ _
  · exact Gives.pure muted_nil

theorem systemInit_mute (m : Json) : Returns (systemInit m) Muted :=
  after fun _ => after fun _ => after fun _ => Gives.pure (muted_map (fun _ => by trivial) _)

theorem taskStarted_mute (m : Json) : Returns (taskStarted m) Muted :=
  after fun _ => after fun _ => after fun _ => after fun _ => Gives.ite
    (after fun _ => after fun _ => after fun _ => Gives.pure (muted_single trivial))
    (Gives.pure muted_nil)

theorem taskChanged_mute (m : Json) : Returns (taskChanged m) Muted :=
  after fun _ => after fun _ => after fun _ => Gives.pure (muted_map (fun _ => by trivial) _)

theorem forgetContext_mute : Returns forgetContext Muted :=
  after fun _ => Gives.pure (muted_single trivial)

theorem streamCounters_mute (event : Json) : Returns (streamCounters event) Muted := by
  refine after fun a => Gives.ite (after fun _ => Gives.pure muted_nil) (Gives.ite ?_
    (Gives.ite (after fun _ => Gives.pure muted_nil) (Gives.pure muted_nil)))
  split
  · exact after fun _ => after fun _ => after fun _ =>
      Gives.pure (muted_ite (muted_single trivial) muted_nil)
  · exact Gives.pure muted_nil

theorem streamProgress_mute (event : Json) : Returns (streamProgress event) Muted := by
  refine after fun a => ?_
  split
  · exact Gives.ite (Gives.pure muted_nil) (after fun _ => Gives.pure (muted_single trivial))
  · exact Gives.pure muted_nil

theorem streamText_mute (event : Json) : Returns (streamText event) Muted := by
  unfold streamText
  split
  · exact Gives.ite (after fun _ => Gives.pure (muted_single trivial)) (Gives.pure muted_nil)
  · exact Gives.pure muted_nil

theorem streamEvent_mute (m : Json) : Returns (streamEvent m) Muted :=
  Gives.ite (Gives.bind (streamCounters_mute _) fun _ h₁ => Gives.bind (streamProgress_mute _)
    fun _ h₂ => Gives.bind (streamText_mute _) fun _ h₃ =>
      Gives.pure (muted_append.2 ⟨muted_append.2 ⟨h₁, h₂⟩, h₃⟩)) (Gives.pure muted_nil)

theorem agentStarted_mute (block : Json) : Returns (agentStarted block) Muted :=
  after fun _ => after fun _ => after fun _ => after fun _ => Gives.pure (muted_single trivial)

theorem assistantBlock_mute (top : Bool) (block : Json) :
    Returns (assistantBlock top block) Muted := by
  refine after fun a => Gives.ite ?_ (Gives.ite (after fun _ => Gives.bind
    (Gives.ite (agentStarted_mute _) (Gives.pure muted_nil)) fun _ h =>
      Gives.pure (muted_append.2 ⟨h, muted_single trivial⟩)) (Gives.pure muted_nil))
  split
  · exact after fun _ => Gives.pure (muted_single trivial)
  · exact Gives.pure muted_nil

theorem assistant_mute (m : Json) : Returns (assistant m) Muted :=
  after fun _ => after fun _ => after fun _ => Gives.bind (Returns.gather (assistantBlock_mute _) _)
    fun _ h => after fun _ =>
      Gives.pure (muted_append.2 ⟨muted_ite muted_nil (muted_single trivial), h⟩)

theorem recordSkillLoad_mute (name : String) : Returns (recordSkillLoad name) Muted :=
  after fun _ => Gives.ite (Gives.pure muted_nil)
    (after fun _ => Gives.pure (muted_single trivial))

theorem skillText_mute (text : List Char) : Returns (skillText text) Muted := by
  unfold skillText
  split
  · refine Gives.ite (Gives.pure muted_nil) (after fun a => after fun _ => ?_)
    split
    · exact recordSkillLoad_mute _
    · exact Gives.pure muted_nil
  · exact Gives.pure muted_nil

theorem skillLoad_mute (m : Json) : Returns (skillLoad m) Muted := by
  refine after fun a => ?_
  split
  · exact Gives.pure muted_nil
  · exact Gives.ite (Gives.pure muted_nil) (Gives.ite (Gives.ite
      (after fun _ => recordSkillLoad_mute _) (after fun _ => Gives.pure muted_nil))
      (Gives.ite (after fun _ => Gives.pure muted_nil) (skillText_mute _)))

theorem userBlock_mute (top : Bool) (block : Json) : Returns (userBlock top block) Muted :=
  Gives.ite (after fun _ => after fun _ => Gives.pure (muted_append.2
    ⟨muted_ite (muted_single trivial) muted_nil, muted_single trivial⟩)) (Gives.pure muted_nil)

theorem user_mute (m : Json) : Returns (user m) Muted :=
  Gives.bind (skillLoad_mute m) fun _ h₁ => Gives.bind (Returns.gather (userBlock_mute _) _)
    fun _ h₂ => Gives.pure (muted_append.2 ⟨h₁, h₂⟩)

theorem revive_mute : Returns revive Muted := after fun _ => Gives.pure (muted_single trivial)

theorem requestTitle_mute : Returns requestTitle Muted := by
  refine after fun a => Gives.ite (Gives.pure muted_nil) (after fun _ => ?_)
  split
  · exact after fun _ => Gives.pure (muted_single (quiet_request _ _))
  · exact Gives.pure muted_nil

theorem finish_mute (m : Json) : Returns (finish m) Muted := by
  refine after fun _ => after fun _ => after fun a => Gives.bind
    (Gives.ite (Gives.pure muted_nil) requestTitle_mute) fun _ h => after fun _ =>
      Gives.pure (muted_append.2 ⟨muted_append.2 ⟨muted_append.2 ⟨muted_ite (muted_single trivial)
        muted_nil, ?_⟩, h⟩, muted_single trivial⟩)
  exact muted_ite muted_nil (muted_map (fun _ => by trivial) _)

theorem settle_mute : Returns settle Muted :=
  after fun _ => after fun _ => Gives.pure (muted_ite muted_nil (muted_single trivial))

theorem result_mute (m : Json) : Returns (result m) Muted := by
  unfold result
  split
  · exact after fun _ => after fun _ => Gives.ite (after fun _ => Gives.pure (muted_single trivial))
      (Gives.pure muted_nil)
  · exact Gives.bind settle_mute fun _ h₁ => after fun _ => Gives.ite (Gives.pure h₁)
      (Gives.bind (Gives.ite revive_mute (Gives.pure muted_nil)) fun _ h₂ => after fun _ =>
        after fun _ => Gives.bind (finish_mute m) fun _ h₃ =>
          Gives.pure (muted_append.2 ⟨muted_append.2 ⟨h₁, h₂⟩, h₃⟩))

end Claude

namespace Claude

open Returns

theorem nativeRequest_takenUp (m : Json) : Returns (nativeRequest m)
    (TakenUp (fun _ => True) ((m.index "request_id").str?.getD "")) := by
  refine Gives.ite (after fun _ => Gives.ite ?_ (Gives.pure (takenUp_single ⟨rfl, trivial⟩)))
    (Gives.pure (takenUp_single rfl))
  split
  · exact Gives.pure (takenUp_single ⟨rfl, trivial⟩)
  · exact Gives.pure (takenUp_single rfl)

/-- What a line of Claude leads to: a request is taken up, and no other line takes one up. -/
def Spoken (m : Json) (actions : List Action) : Prop :=
  if kind m = "control_request" then
    TakenUp (fun _ => True) ((m.index "request_id").str?.getD "") actions
  else Muted actions

theorem Spoken.of_mute {m : Json} {actions : List Action} (h : Muted actions) : Spoken m actions := by
  unfold Spoken
  split_ifs
  · exact .inl h
  · exact h

theorem dispatch_spoken (m : Json) : Returns (dispatch m) (Spoken m) := by
  have mute {p : Step (List Action)} (h : Returns p Muted) : Returns p (Spoken m) :=
    h.mono fun _ => Spoken.of_mute
  unfold dispatch
  by_cases hk : kind m = "control_request"
  · simp only [hk, String.reduceEq, if_false, if_true]
    exact (nativeRequest_takenUp m).mono fun _ h => by rwa [Spoken, if_pos hk]
  · rw [if_neg hk]
    refine mute (Gives.ite (Gives.ite ?_ (Gives.ite (initAnswered_mute m)
      (Gives.pure muted_nil))) (Gives.ite (Gives.ite (systemInit_mute m) (Gives.ite
      (after fun _ => Gives.pure muted_nil) (Gives.ite (taskStarted_mute m) (Gives.ite
      (taskChanged_mute m) (Gives.ite forgetContext_mute (Gives.pure muted_nil))))))
      (Gives.ite forgetContext_mute (Gives.ite (streamEvent_mute m) (Gives.ite
      (assistant_mute m) (Gives.ite (user_mute m) (Gives.ite (result_mute m)
      (Gives.pure muted_nil))))))))
    exact after fun _ => Gives.pure (muted_single trivial)

theorem decodeTurn_spoken (m : Json) : Returns (decodeTurn m) (Spoken m) := by
  have mute {p : Step (List Action)} (h : Returns p Muted) : Returns p (Spoken m) :=
    h.mono fun _ => Spoken.of_mute
  refine after fun a => Gives.ite (mute (titleGenerated_mute m)) ?_
  split
  · exact mute (renamed_mute _ _)
  · exact Gives.ite (mute (Gives.pure muted_nil)) (Gives.ite (mute (titleChanged_mute m))
      (dispatch_spoken m))

theorem decode_spoken (m : Json) : Returns (decode m) (Spoken m) := by
  unfold decode
  split
  · exact (childMessage_mute _ _).mono fun _ => Spoken.of_mute
  · refine after fun _ => after fun a => Gives.bind (Gives.ite revive_mute (Gives.pure muted_nil))
      fun started hs => Gives.bind (decodeTurn_spoken m) fun out ho => Gives.pure ?_
    unfold Spoken at ho ⊢
    split_ifs at ho ⊢ with hk
    · rcases ho with ho | ⟨before, action, rfl, hb, ha⟩
      · exact .inl (muted_append.2 ⟨hs, ho⟩)
      · exact .inr ⟨started ++ before, action, by simp, muted_append.2 ⟨hs, hb⟩, ha⟩
    · exact muted_append.2 ⟨hs, ho⟩

theorem message_spoken (line : Option Json) : Returns (advance (.message line)) fun actions =>
    ∃ m, line = some m ∧ Spoken m actions := by
  refine after fun a => after fun _ => ?_
  cases line with
  | none => exact Gives.fail
  | some m => exact (decode_spoken m).mono fun _ h => ⟨m, rfl, h⟩

theorem approval_frame (id : String) (input : Json) (allow : Bool) :
    Returns (advance (.approval id input allow)) fun actions =>
      ∃ frame, actions = [.write frame] ∧ responds frame = some id :=
  after fun _ => after fun _ => Gives.pure ⟨_, rfl, responds_approval _ _ _⟩

theorem questionAnswer_frame (id : String) (input : Json) (questions : List UserQuestion)
    (answers : Option (List QuestionAnswer)) :
    Returns (advance (.questionAnswer id input questions answers)) fun actions =>
      ∃ frame, actions = [.write frame] ∧ responds frame = some id :=
  after fun _ => after fun _ => Gives.bind (Gives.lift fun _ h => responds_questionResponse h)
    fun _ h => Gives.pure ⟨_, rfl, h⟩

end Claude

namespace Traex

open Assoc

/-- Actions that only write quiet frames. -/
abbrev Calm (actions : List Action) : Prop := ∀ action ∈ actions, action.Calm Quiet

theorem Calm.muted {actions : List Action} (h : Calm actions) : Muted actions := fun action ha => by
  have := h action ha
  cases action with
  | write frame => exact this
  | interrupted => trivial
  | _ => cases this

theorem quiet_method (id : Json) (method : String) (params : Json) :
    Quiet (.obj [("id", id), ("method", .str method), ("params", params)]) := rfl

theorem calm_single {action : Action} (h : action.Calm Quiet) : Calm [action] := by
  simpa [Calm] using h

theorem calm_nil : Calm [] := fun _ h => absurd h List.not_mem_nil

section

variable {I : Traex → Prop} (hI : ∀ {a b : Traex}, a.approvals = b.approvals → I a → I b)

include hI

theorem request_gives (method : Method) (params : Json) :
    Gives I (request method params) fun action => action.Calm Quiet :=
  Gives.look fun _ => Gives.check <| Gives.check <| Gives.set (fun _ => hI rfl) <|
    Gives.pure (quiet_method _ _ _)

theorem one_request (method : Method) (params : Json) :
    Gives I (do
      let action ← request method params
      pure [action]) Calm :=
  Gives.bind (request_gives hI _ _) fun _ h => Gives.pure (calm_single h)

theorem initializeServer_gives : Gives I initializeServer Calm :=
  Gives.set (fun _ => hI rfl) (one_request hI _ _)

theorem start_gives (prompt : String) : Gives I (start prompt) Calm :=
  Gives.check <| Gives.set (fun _ => hI rfl) <| Gives.look fun _ => Gives.need fun _ =>
    one_request hI _ _

theorem interrupt_gives : Gives I interrupt Calm := by
  refine Gives.look fun a => ?_
  split
  · exact one_request hI _ _
  · exact Gives.ite (Gives.set (fun _ => hI rfl) (Gives.pure calm_nil))
      (Gives.pure (calm_single trivial))

theorem steer_gives (requestId prompt : String) : Gives I (steer requestId prompt) Calm :=
  Gives.look fun _ => Gives.check <| Gives.check <| Gives.check <|
    Gives.bind (request_gives hI _ _) fun _ h =>
      Gives.set (fun _ => hI rfl) (Gives.pure (calm_single h))

theorem openThread_gives : Gives I openThread Calm :=
  Gives.look fun _ => Gives.need fun _ => Gives.calculate fun _ => one_request hI _ _

theorem advance_calm {i : Input} (hm : i.isMessage = false) (hd : i.isDecision = false) :
    Gives I (advance i) Calm := by
  cases i with
  | message line => cases hm
  | discoverCommands => exact Gives.set (fun _ => hI rfl) (initializeServer_gives hI)
  | «open» => exact Gives.look fun _ => Gives.ite (initializeServer_gives hI) Gives.fail
  | renameTitle id title =>
    exact Gives.look fun _ => Gives.check <| Gives.set (fun _ => hI rfl) (one_request hI _ _)
  | interrupt => exact interrupt_gives hI
  | queue requestId text uuid => exact steer_gives hI _ _
  | start text =>
    refine Gives.look fun a => ?_
    split
    · exact Gives.check <| Gives.set (fun _ => hI rfl) (initializeServer_gives hI)
    · exact start_gives hI _
    · exact Gives.fail
  | approval id input allow => cases hd
  | questionAnswer id input questions answers => cases hd

end

/-- An approval is kept under the text of its native id. -/
def Keyed (a : Traex) : Prop := ∀ e ∈ a.approvals, e.2.2.render = e.1

theorem Keyed.of_eq {a b : Traex} (h : a.approvals = b.approvals) (ha : a.Keyed) : b.Keyed := by
  unfold Keyed at ha ⊢
  rwa [← h]

/-- A program that keeps the approvals under their ids, and returns something in `Q`. -/
abbrev Yields {β : Type} (m : Step β) (Q : β → Prop) : Prop := Gives Keyed m Q

/-! ## What a running turn reports -/

theorem addChild_keeps (child : String) : Keeps Keyed (addChild child) :=
  Keeps.current.bind fun _ => Keeps.bind (Keeps.bailIf _ _) fun _ => Keeps.update fun _ h => h

theorem trackChildren_keeps (x : Json) : Keeps Keyed (trackChildren x) :=
  Keeps.bind (Keeps.forEach fun _ _ => Keeps.bind (Keeps.orError _ _) fun _ => addChild_keeps _)
    fun _ => Keeps.forEach fun _ _ => Keeps.ite (Keeps.update fun _ h => h) (addChild_keeps _)

theorem agentMessage_yields (x : Json) (id : String) (completed : Bool) :
    Yields (agentMessage x id completed) Muted :=
  Gives.look fun _ => Gives.ite (Gives.need fun _ => Gives.check <| Gives.set (fun _ h => h) <|
    Gives.pure (muted_single trivial)) (Gives.pure muted_nil)

theorem toolStarted_yields (x : Json) (kind id name : String) :
    Yields (toolStarted x kind id name) Muted :=
  Gives.look fun _ => Gives.ite (Gives.check <| Gives.set (fun _ h => h) <|
    Gives.pure (muted_single trivial)) (Gives.pure muted_nil)

theorem backgrounded_yields (x : Json) (id : String) : Yields (backgrounded x id) Muted :=
  Gives.look fun _ => Gives.check <| Gives.need fun _ => Gives.set (fun _ h => h) <|
    Gives.pure (muted_single trivial)

theorem releaseCommand_keeps (x : Json) (id : String) : Keeps Keyed (releaseCommand x id) :=
  Keeps.ite (Keeps.bind (Keeps.update fun _ h => h) fun _ => Keeps.when (Keeps.update fun _ h => h))
    (Keeps.pure ())

theorem toolCompleted_yields (x : Json) (kind id : String) :
    Yields (toolCompleted x kind id) Muted :=
  Gives.ite (backgrounded_yields _ _) (Gives.check <| Gives.past
    (Keeps.when (releaseCommand_keeps _ _)) fun _ => Gives.pure (muted_single trivial))

theorem item_yields (x : Json) (completed : Bool) : Yields (item x completed) Muted := by
  refine Gives.calculate fun kind => Gives.calculate fun id => Gives.ite
    (Gives.pure (muted_single trivial)) (Gives.ite (agentMessage_yields _ _ _)
      (Gives.calculate fun name => ?_))
  split
  · exact Gives.pure muted_nil
  · exact Gives.past (Keeps.when (trackChildren_keeps _)) fun _ =>
      Gives.bind (toolStarted_yields _ _ _ _) fun _ h => Gives.ite
        (Gives.bind (toolCompleted_yields _ _ _) fun _ h' => Gives.pure (muted_append.2 ⟨h, h'⟩))
        (Gives.pure h)

theorem turnCompleted_yields (turn : Json) : Yields (turnCompleted turn) Muted :=
  Gives.calculate fun _ => Gives.check <| Gives.set (fun _ _ e he => absurd he List.not_mem_nil) <|
    Gives.look fun _ => Gives.set (fun _ h => h) <| Gives.pure
      (muted_append.2 ⟨muted_ite (muted_single trivial) muted_nil, muted_single trivial⟩)

theorem turnNotification_yields (method : String) (params : Json) :
    Yields (turnNotification method params) Muted :=
  Gives.ite (Gives.calculate fun _ => Gives.look fun _ => Gives.check <| Gives.set (fun _ h => h) <|
      Gives.need fun _ => Gives.pure (muted_cons.2 ⟨trivial, muted_single trivial⟩))
    (Gives.ite (Gives.pure (muted_single trivial)) (Gives.ite (item_yields _ _)
      (Gives.ite (turnCompleted_yields _) (Gives.ite Gives.fail (Gives.pure muted_nil)))))

theorem ofThread_yields {message : Json} {m : Step (List Action)} (h : Yields m Muted) :
    Yields (ofThread message m) Muted :=
  Gives.look fun _ => Gives.ite (Gives.pure muted_nil) h

theorem afterAdmission_yields (message : Json) : Yields (afterAdmission message) Muted := by
  refine Gives.look fun a => ?_
  split
  · exact Gives.ite (item_yields _ _) (Gives.pure muted_nil)
  · exact Gives.ite (Gives.pure muted_nil) (turnNotification_yields _ _)

theorem replay_yields (completion : Option Json) : Yields (replay completion) Muted := by
  unfold replay
  split
  · exact ofThread_yields (afterAdmission_yields _)
  · exact Gives.pure muted_nil

theorem admitTurn_yields (turn : Json) : Yields (admitTurn turn) Muted :=
  Gives.calculate fun _ => Gives.set (fun _ h => h) <| Gives.look fun _ => Gives.need fun _ =>
    Gives.set (fun _ h => h) <| Gives.bind (replay_yields _) fun _ h => Gives.look fun _ =>
    Gives.set (fun _ h => h) <| Gives.bind (Gives.ite ((interrupt_gives Keyed.of_eq).mono fun _ => Calm.muted)
      (Gives.pure muted_nil)) fun _ h' =>
    Gives.pure (muted_append.2 ⟨muted_append.2 ⟨muted_single trivial, h⟩, h'⟩)

theorem keepCompletion_yields (message : Json) : Yields (keepCompletion message) Muted :=
  Gives.look fun _ => Gives.calculate fun _ => Gives.check <| Gives.set (fun _ h => h) <|
    Gives.pure muted_nil

theorem notification_yields (message : Json) : Yields (notification message) Muted :=
  ofThread_yields <| Gives.look fun _ => Gives.ite
    (Gives.pure (muted_map (fun _ => by trivial) _)) (Gives.ite (admitTurn_yields _)
      (Gives.ite (keepCompletion_yields _) (afterAdmission_yields _)))

/-! ## Answers to what the adapter requested -/

theorem refused_yields (request : PendingRequest) (error : Json) :
    Yields (refused request error) Muted := by
  unfold refused
  split
  · exact Gives.pure (muted_single trivial)
  · exact Gives.look fun _ => Gives.ite (Gives.pure (muted_single trivial))
      (Gives.ite (Gives.set (fun _ h => h) (Gives.pure (muted_single trivial))) Gives.fail)

theorem steerAnswered_yields (requestId expected : String) (result : Json) :
    Yields (steerAnswered requestId expected result) Muted :=
  Gives.check <| Gives.look fun _ => Gives.ite (Gives.set (fun _ h => h) (Gives.pure muted_nil))
    (Gives.ite (Gives.pure (muted_ite (muted_single trivial) muted_nil)) Gives.fail)

theorem readConfig_yields : Yields readConfig Calm :=
  Gives.look fun _ => one_request Keyed.of_eq _ _

theorem initialized_yields : Yields initialized Muted :=
  Gives.look fun _ => Gives.ite (Gives.pure (muted_single trivial)) (Gives.check <|
    Gives.set (fun _ h => h) <| Gives.bind (Gives.ite (openThread_gives Keyed.of_eq) readConfig_yields)
      fun _ h => Gives.pure (muted_cons.2 ⟨rfl, h.muted⟩))

theorem configRead_yields (result : Json) : Yields (configRead result) Muted :=
  Gives.set (fun _ h => h) <| Gives.look fun _ => Gives.past (Keeps.when (Keeps.bind
    (Keeps.orError _ _) fun _ => Keeps.update fun _ h => h)) fun _ =>
    Gives.set (fun _ h => h) ((openThread_gives Keyed.of_eq).mono fun _ => Calm.muted)

theorem nameThread_yields (thread : String) (title : Option String) :
    Yields (nameThread thread title) Muted := by
  cases title with
  | some title => exact Gives.set (fun _ h => h) ((one_request Keyed.of_eq _ _).mono fun _ => Calm.muted)
  | none => exact Gives.pure muted_nil

theorem startPending_yields (prompt : Option String) : Yields (startPending prompt) Muted := by
  cases prompt with
  | some prompt => exact (start_gives Keyed.of_eq prompt).mono fun _ => Calm.muted
  | none => exact Gives.pure muted_nil

theorem threadOpened_yields (result : Json) : Yields (threadOpened result) Muted :=
  Gives.calculate fun _ => Gives.look fun _ => Gives.check <| Gives.set (fun _ h => h) <|
    Gives.bind (nameThread_yields _ _) fun _ h => Gives.set (fun _ h => h) <|
    Gives.bind (startPending_yields _) fun _ h' =>
    Gives.pure (muted_append.2 ⟨muted_append.2 ⟨muted_single trivial, h⟩, h'⟩)

theorem answered_yields (method : Method) (result : Json) :
    Yields (answered method result) Muted := by
  cases method with
  | initializing => exact initialized_yields
  | configRead => exact configRead_yields result
  | threadStart | threadResume => exact threadOpened_yields result
  | turnStart => exact Gives.look fun _ => Gives.ite (admitTurn_yields _) (Gives.pure muted_nil)
  | turnInterrupt => exact Gives.pure (muted_single trivial)
  | threadNameSet =>
    exact Gives.look fun _ => Gives.set (fun _ h => h)
      (Gives.pure (muted_map (fun _ => by trivial) _))
  | turnSteer => exact Gives.fail

theorem response_yields (message : Json) : Yields (response message) Muted := by
  refine Gives.look fun a => ?_
  split
  · exact Gives.pure muted_nil
  · refine Gives.set (fun _ h => h) ?_
    split
    · exact refused_yields _ _
    · refine Gives.need fun result => ?_
      split
      · exact steerAnswered_yields _ _ _
      · exact answered_yields _ _

/-! ## Requests and decisions -/

/-- A question of Traex carries its native id in its input. -/
def Fits (i : Interaction) : Prop :=
  i.questions.isSome = true → (i.input.index "id").render = i.nativeId

theorem nativeRequest_yields (message : Json) :
    Yields (nativeRequest message) (TakenUp Fits (message.index "id").render) := by
  refine Gives.look fun a => Gives.ite (Gives.pure (takenUp_single rfl)) ?_
  split
  · refine Gives.check (Gives.set (fun a ha e he => ?_)
      (Gives.pure (takenUp_single ⟨rfl, fun h => nomatch h⟩)))
    rcases mem_put.1 he with ⟨he, -⟩ | rfl
    · exact ha e he
    · rfl
  · exact Gives.ite (Gives.calculate fun _ => Gives.pure (takenUp_single ⟨rfl, fun _ => rfl⟩))
      (Gives.pure (takenUp_single rfl))

theorem approval_yields (id : String) (input : Json) (allow : Bool) :
    Yields (advance (.approval id input allow)) fun actions =>
      ∃ frame, actions = [.write frame] ∧ responds frame = some id := by
  intro a ha
  refine wp_bind.2 (wp_current.2 (wp_bind.2 (wp_orError.2 ⟨?_, fun _ => ha⟩)))
  rintro ⟨method, native⟩ he
  refine ⟨⟨_, rfl, ?_⟩, fun e' he' => ha e' (mem_drop.1 he').1⟩
  exact congrArg some (ha _ (mem_of_lookup he))

theorem questionAnswer_yields (id : String) (input : Json) (questions : List UserQuestion)
    (answers : Option (List QuestionAnswer)) :
    Yields (advance (.questionAnswer id input questions answers)) fun actions =>
      ∃ frame, actions = [.write frame] ∧ responds frame = some (input.index "id").render :=
  Gives.calculate fun _ => Gives.pure ⟨_, rfl, rfl⟩

/-- What a line of Traex leads to: a request is taken up, and no other line takes one up. -/
theorem message_yields (line : Option Json) : Yields (advance (.message line)) fun actions =>
    ∃ m, line = some m ∧
      if (m.get? "method").isSome ∧ (m.get? "id").isSome then
        TakenUp Fits (m.index "id").render actions
      else Muted actions := by
  cases line with
  | none => exact Gives.fail
  | some m =>
    show Yields (if (m.get? "method").isSome then
      if (m.get? "id").isSome then nativeRequest m else notification m
      else response m) _
    split_ifs with hmethod hid
    · exact (nativeRequest_yields m).mono fun _ h => ⟨m, rfl, by simpa [hmethod, hid] using h⟩
    · exact (notification_yields m).mono fun _ h => ⟨m, rfl, by simpa [hid] using h⟩
    · exact (response_yields m).mono fun _ h => ⟨m, rfl, by simpa [hmethod] using h⟩

theorem advance_keyed (i : Input) : Keeps Keyed (advance i) := by
  cases hm : i.isMessage
  · cases hd : i.isDecision
    · exact (advance_calm Keyed.of_eq hm hd).keeps
    · cases i with
      | approval id input allow => exact (approval_yields _ _ _).keeps
      | questionAnswer id input questions answers => exact (questionAnswer_yields _ _ _ _).keeps
      | _ => cases hd
  · cases i with
    | message line => exact (message_yields line).keeps
    | _ => cases hm

end Traex

/-! ## Any agent -/

/-- A decision of the user as it reaches the adapter, about what was asked. -/
def Decision.Reaches (x : Decision) (i : Interaction) (input : Input) : Prop :=
  match x with
  | .allow yes => i.questions = none ∧ input = .approval i.nativeId i.input yes
  | .answers given => ∃ questions, i.questions = some questions ∧
      input = .questionAnswer i.nativeId i.input questions given

namespace Agent

/-- What the adapter knows of its approvals is in order. -/
def Valid : Agent → Prop
  | claude _ => True
  | traex a => a.Keyed

/-- What was asked can be answered under its native id. -/
def Fits : Agent → Interaction → Prop
  | claude _, _ => True
  | traex _, i => Traex.Fits i

variable {a : Agent} {instructions uuid cwd : String}

theorem create_valid {session : Session} {config : LaunchConfig}
    (h : create instructions uuid cwd session config = .ok a) : a.Valid := by
  unfold create at h
  split_ifs at h
  · obtain ⟨c, -, rfl⟩ := Fallible.map_eq_ok.1 h
    trivial
  · obtain ⟨t, ht, rfl⟩ := Fallible.map_eq_ok.1 h
    obtain ⟨_, -, ht⟩ := Fallible.bind_eq_ok.1 ht
    obtain rfl := Except.ok.inj ht
    exact fun e he => absurd he List.not_mem_nil

theorem advance_valid (h : a.Valid) (i : Input) : (a.advance i).2.Valid := by
  cases a with
  | claude a => trivial
  | traex a => exact (Traex.advance_keyed i).run h

theorem advance_fits (a : Agent) (i : Input) : (a.advance i).2.Fits = a.Fits := by
  cases a <;> rfl

theorem adapter_calm : (adapter instructions uuid cwd).Calm Quiet := by
  intro a i actions hm hd ha
  cases a with
  | claude a => exact (Claude.advance_calm hm hd).value trivial ha
  | traex a => exact Gives.value (@Traex.advance_calm (fun _ => True) (fun _ _ => trivial) i hm hd) trivial ha

/-- A line of the agent is a request that is taken up, or takes none up. -/
theorem advance_message {line : Option Json} {actions : List Action} (h : a.Valid)
    (ha : (a.advance (.message line)).1 = .ok actions) :
    match line.bind a.request with
    | some r => TakenUp a.Fits r actions
    | none => Muted actions := by
  cases a with
  | claude a =>
    obtain ⟨m, rfl, hm⟩ := (Claude.message_spoken line).value trivial ha
    unfold Claude.Spoken at hm
    simp only [Option.bind_some, request]
    split_ifs at hm ⊢ <;> exact hm
  | traex a =>
    obtain ⟨m, rfl, hm⟩ := (Traex.message_yields line).value h ha
    simp only [Option.bind_some, request]
    split_ifs at hm ⊢ <;> exact hm

/-- A decision is one frame, which answers what was asked. -/
theorem advance_decision {x : Decision} {i : Interaction} {input : Input} {actions : List Action}
    (h : a.Valid) (hi : a.Fits i) (hx : x.Reaches i input)
    (ha : (a.advance input).1 = .ok actions) :
    ∃ frame, actions = [.write frame] ∧ responds frame = some i.nativeId := by
  cases x with
  | allow yes =>
    obtain ⟨-, rfl⟩ := hx
    cases a with
    | claude a => exact (Claude.approval_frame _ _ _).value trivial ha
    | traex a => exact (Traex.approval_yields _ _ _).value h ha
  | answers given =>
    obtain ⟨questions, hq, rfl⟩ := hx
    cases a with
    | claude a => exact (Claude.questionAnswer_frame _ _ _ _).value trivial ha
    | traex a =>
      obtain ⟨frame, rfl, hf⟩ := (Traex.questionAnswer_yields _ _ _ _).value h ha
      exact ⟨frame, rfl, hf.trans (congrArg some (hi (by simp [hq])))⟩

end Agent

end LatteWork
