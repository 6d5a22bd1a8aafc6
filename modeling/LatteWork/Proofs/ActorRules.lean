import LatteWork.Runtime.Actor

/-!
# Rules of the actor

What holds before every turn of an actor's loop and is kept by its few steps that matter is kept by
all it does: the rules of an invariant are about those steps, and every program follows.
-/

namespace LatteWork

namespace StoreOp

/-- The session is reported as finished well. -/
def completes : StoreOp → Bool
  | .state _ .completed _ => true
  | _ => false

end StoreOp

/-- A decision of the user about what the agent asked. -/
def Control.decides : Control → Bool
  | .answerQuestion .. | .approval .. => true
  | _ => false

/-- The agent says something, or the user decides about what it asked. -/
def Wake.speaks : Wake → Bool
  | .output (.line _) => true
  | .control c => c.decides
  | _ => false

/-- An action that only writes, and only quiet frames. -/
def Action.Calm (quiet : Json → Prop) : Action → Prop
  | .write frame => quiet frame
  | .interrupted => True
  | _ => False

/-- An action that asks nothing, and writes only quiet frames. -/
def Action.Mute (quiet : Json → Prop) : Action → Prop
  | .write frame | .metadataWrite frame => quiet frame
  | .approval .. | .question .. => False
  | _ => True

/-- Without its agent an adapter only writes. -/
def AgentAdapter.Calm {α : Type} (agent : AgentAdapter α) (quiet : Json → Prop) : Prop :=
  ∀ a input actions, input.isMessage = false → input.isDecision = false →
    (agent.advance a input).1 = .ok actions → ∀ action ∈ actions, action.Calm quiet

namespace Output

/-- Nothing that is kept of the actor changes with it. -/
def plain : Output → Bool
  | .started .. | .handed .. | .replied .. => true
  | _ => false

end Output

namespace Act

open Prog

variable {α β : Type} {ctx : Setting α} {quiet : Json → Prop} {I : Actor α → Prop}

/-- An invariant of the actor while it neither starts nor ends a process: only the agent asks and
ends turns, and all else keeps the invariant when these steps do. -/
structure Local (ctx : Setting α) (quiet : Json → Prop) (I : Actor α → Prop) : Prop where
  calm : ctx.agent.Calm quiet
  book : ∀ f : Actor α → Actor α, (∀ w, (f w).store = w.store ∧ (f w).process = w.process ∧
    (f w).spawned = w.spawned ∧ (f w).outputs = w.outputs) → ∀ w, I w → I (f w)
  plain : ∀ o : Output, o.plain = true → Keeps I (emit o)
  wrote : ∀ frame, quiet frame → Keeps I (emit (.wrote frame))
  db : ∀ op : StoreOp, op.completes = false → Keeps I (db op)
  process : ∀ f : Process α → Process α, (∀ p, (f p).pid = p.pid ∧ (f p).pending = p.pending ∧
    (f p).adapter = p.adapter) → Keeps I (setProcess f)
  advance : ∀ input, Keeps I (advance ctx input)
  clear : Keeps I clearPending

/-- An invariant of the actor: of its database, its process and what it did. Only the agent asks and
ends turns, and only the user decides. -/
structure Rules (ctx : Setting α) (quiet : Json → Prop) (I : Actor α → Prop) : Prop extends
    Local ctx quiet I where
  spawn : ∀ config, Keeps I (spawn ctx config)
  drop : Keeps I dropProcess

namespace Local

variable (R : Local ctx quiet I)

set_option linter.unusedSectionVars false

include R

theorem update {f : Actor α → Actor α} (h : ∀ w, (f w).store = w.store ∧
    (f w).process = w.process ∧ (f w).spawned = w.spawned ∧ (f w).outputs = w.outputs) :
    Keeps I (Prog.update f : Act α Unit) :=
  Keeps.update (R.book f h)

theorem read (f : Store → Except String β) : Keeps I (read f : Act α β) :=
  Keeps.current.bind fun _ => Keeps.lift _

theorem reply (waiter : Option ℕ) (answer : Except String Answer) :
    Keeps I (reply waiter answer : Act α Unit) := by
  unfold Act.reply
  split
  · exact Keeps.pure ()
  · exact R.plain _ rfl

theorem outcome (list : Outside → List (Option String)) (rest : Outside → Outside) :
    Keeps I (outcome list rest : Act α Unit) := by
  refine Keeps.current.bind fun w => Keeps.bind (R.update fun _ => ⟨rfl, rfl, rfl, rfl⟩) fun _ => ?_
  split
  · exact Keeps.pure ()
  · exact Keeps.fail _

theorem freshUuid : Keeps I (freshUuid : Act α String) :=
  Keeps.current.bind fun _ => Keeps.bind (R.update fun _ => ⟨rfl, rfl, rfl, rfl⟩) fun _ =>
    Keeps.pure _

theorem capture : Keeps I (capture : Act α Snapshot) :=
  Keeps.current.bind fun _ => Keeps.bind (R.update fun _ => ⟨rfl, rfl, rfl, rfl⟩) fun _ =>
    Keeps.pure _

theorem write {frame : Json} (h : Keeps I (emit (.wrote frame))) :
    Keeps I (write frame : Act α Unit) :=
  Keeps.bind (Keeps.bailIf _ _) fun _ => Keeps.bind (R.outcome _ _) fun _ => h

theorem finishTurn (interrupted backgroundPending : Bool) :
    Keeps I (finishTurn ctx interrupted backgroundPending) := by
  refine Keeps.current.bind fun w => ?_
  split
  · exact Keeps.pure ()
  · refine Keeps.bind R.capture fun after => Keeps.bind (Keeps.lift _) fun frozen => ?_
    exact Keeps.bind (R.update fun _ => ⟨rfl, rfl, rfl, rfl⟩) fun _ => R.db _ rfl

theorem theProcess (e : String) : Keeps I (theProcess e : Act α (Process α)) :=
  Keeps.current.bind fun _ => Keeps.orError _ _

/-- Only the agent asks and ends turns. -/
theorem advanceCalm {input : Input} (hm : input.isMessage = false) (hd : input.isDecision = false) :
    Gives I (Act.advance ctx input) fun actions => ∀ action ∈ actions, action.Calm quiet :=
  Gives.and_keeps (R.advance input) <| Gives.bind (Gives.any _) fun p _ =>
    Gives.bind (Gives.any _) fun _ _ =>
      Gives.lift fun actions ha => R.calm p.adapter input actions hm hd ha

theorem logEvent (config : LaunchConfig) (e : AgentEvent) : Keeps I (logEvent ctx config e) :=
  Keeps.bind (Keeps.lift _) fun _ => R.db _ rfl

theorem captureChild (e : AgentEvent) : Keeps I (captureChild e : Act α Unit) := by
  unfold Act.captureChild
  split
  · exact Keeps.ite (R.outcome _ _) (Keeps.pure ())
  · exact Keeps.pure ()

theorem status : Keeps I (status ctx) :=
  Keeps.bind (R.read _) fun _ => Keeps.pure _

/-! ## What the process does -/

theorem applyAction (config : LaunchConfig) {action : Action} (h : action.Mute quiet) :
    Keeps I (applyAction ctx config action) := by
  cases action with
  | nativeName title => exact R.db _ rfl
  | generatedTitle native title =>
    exact Keeps.bind (R.read _) fun _ => Keeps.ite (R.db _ rfl) (Keeps.pure ())
  | titleRenamed result => exact Keeps.fail _
  | sourceUsed id name => exact Keeps.pure ()
  | commands commands => exact Keeps.fail _
  | write frame => exact R.write (R.wrote _ h)
  | metadataWrite frame =>
    exact Keeps.bind (Keeps.attempt (R.write (R.wrote _ h))) fun _ => Keeps.pure ()
  | ready => exact R.process _ fun _ => ⟨rfl, rfl, rfl⟩
  | turnStarted =>
    exact Keeps.bind (R.read _) fun _ => Keeps.ite (Keeps.pure ()) (R.db _ rfl)
  | inputsConsumed requests => exact R.db _ rfl
  | inputRejected requestId message => exact R.db _ rfl
  | interrupted => exact Keeps.pure ()
  | event e => exact Keeps.bind (R.logEvent _ _) fun _ => R.captureChild e
  | subagentEvent tool e => exact Keeps.bind (Keeps.lift _) fun _ => R.read _
  | nativeSession id => exact R.db _ rfl
  | approval id tool name input => cases h
  | question id tool input questions => cases h
  | finished failed message => exact Keeps.pure ()

theorem applyActions (config : LaunchConfig) {actions : List Action}
    (h : ∀ action ∈ actions, action.Mute quiet) : Keeps I (applyActions ctx config actions) := by
  induction actions with
  | nil => exact Keeps.pure none
  | cons action rest ih =>
    have ih := ih fun a ha => h a (List.mem_cons_of_mem _ ha)
    unfold Act.applyActions
    split
    · exact Keeps.pure _
    · exact Keeps.pure _
    · rename_i heq
      obtain ⟨rfl, rfl⟩ := List.cons.inj heq
      exact Keeps.bind (R.applyAction config (h _ List.mem_cons_self)) fun _ => ih

/-- Calm actions do not end a turn. -/
theorem applyCalmActions (config : LaunchConfig) {actions : List Action}
    (h : ∀ action ∈ actions, action.Calm quiet) :
    Gives I (Act.applyActions ctx config actions) fun outcome => outcome = none := by
  induction actions with
  | nil => exact Gives.pure rfl
  | cons action rest ih =>
    have ih := ih fun a ha => h a (List.mem_cons_of_mem _ ha)
    have hcalm := h action List.mem_cons_self
    cases action with
    | write frame => exact (Gives.of_keeps (R.write (R.wrote _ hcalm))).bind fun _ _ => ih
    | interrupted => exact ih
    | _ => cases hcalm

theorem titleRenamed (result : Except String String) : Keeps I (titleRenamed ctx result) := by
  refine Keeps.bind (R.theProcess _) fun p => Keeps.bind (Keeps.attempt ?_) fun answer =>
    Keeps.bind (R.reply _ _) fun _ => R.process _ fun _ => ⟨rfl, rfl, rfl⟩
  exact Keeps.bind (Keeps.lift _) fun title => Keeps.bind (R.db _ rfl) fun _ =>
    Keeps.bind (R.read _) fun _ => Keeps.pure _

theorem applyTitle (action : Action) : Keeps I (applyTitle ctx action) := by
  unfold Act.applyTitle
  split
  · exact R.titleRenamed _
  · exact Keeps.pure ()

theorem interruptReady {ready : Bool} :
    Keeps I (interruptReady ctx ready) := by
  refine Keeps.bind (R.theProcess _) fun p => Keeps.when ?_
  exact Keeps.bind (R.process _ fun _ => ⟨rfl, rfl, rfl⟩) fun _ =>
    (R.advanceCalm rfl rfl).bindKeeps fun _ h => Keeps.bind (R.applyCalmActions _ h).keeps fun _ =>
      Keeps.pure ()

/-- What comes before the actions themselves, whatever they are. -/
theorem apply {J : Actor α → Prop} (RJ : Local ctx quiet J) (hJ : ∀ w, I w → J w)
    {actions : List Action}
    (hactions : ∀ config, Leads I J
      (Act.applyActions ctx config (actions.filter (!·.isTitleRenamed))))
    (hend : ∀ status message, Keeps J (endTurn ctx status message)) :
    Leads I J (apply ctx actions) := by
  refine Leads.bind (Keeps.forEach fun action _ => R.applyTitle action) (fun _ =>
    Leads.bind (R.theProcess _) (fun p => Leads.bind (R.process _ fun _ => ⟨rfl, rfl, rfl⟩) (fun _ =>
    Leads.bind (Keeps.when R.clear) (fun _ => Leads.keeps (hactions _) fun outcome =>
    Keeps.bind ?_ fun _ => RJ.interruptReady) hJ) hJ) hJ) hJ
  unfold Act.endTurnOf
  split
  · exact Keeps.pure ()
  · exact hend _ _

theorem applyCalm {actions : List Action} (h : ∀ action ∈ actions, action.Calm quiet) :
    Keeps I (Act.apply ctx actions) := by
  have hactions : ∀ action ∈ actions.filter (!·.isTitleRenamed), action.Calm quiet :=
    fun a ha => h a (List.mem_filter.1 ha).1
  refine Keeps.bind (Keeps.forEach fun action _ => R.applyTitle action) fun _ =>
    Keeps.bind (R.theProcess _) fun p => Keeps.bind (R.process _ fun _ => ⟨rfl, rfl, rfl⟩) fun _ =>
    Keeps.bind (Keeps.when R.clear) fun _ => (R.applyCalmActions _ hactions).bindKeeps fun outcome ho =>
    Keeps.bind ?_ fun _ => R.interruptReady
  subst ho
  exact Keeps.pure ()

end Local

namespace Rules

variable (R : Rules ctx quiet I)

set_option linter.unusedSectionVars false

include R

theorem close : Keeps I (close : Act α Unit) :=
  Keeps.current.bind fun _ => Keeps.bind (R.reply _ _) fun _ => R.drop

/-! ## Admission -/

theorem saveBaselines (requestId : String) : Keeps I (saveBaselines ctx requestId) := by
  refine Keeps.bind R.capture fun baseline => Keeps.bind (R.db _ rfl) fun _ =>
    Keeps.bind (R.read _) fun known => Keeps.ite (Keeps.pure ()) ?_
  exact Keeps.current.bind fun w => R.db _ rfl

theorem noteModel (config : LaunchConfig) : Keeps I (noteModel ctx config) := by
  unfold Act.noteModel
  split
  · exact Keeps.pure ()
  · exact R.db _ rfl

theorem startTurn (turn : SendTurn) : Keeps I (startTurn ctx turn) :=
  Keeps.bind (R.saveBaselines _) fun _ => Keeps.current.bind fun _ =>
    Keeps.bind (Keeps.when (R.spawn _)) fun _ => Keeps.bind (R.theProcess _) fun _ =>
    Keeps.bind (R.process _ fun _ => ⟨rfl, rfl, rfl⟩) fun _ => Keeps.bind (R.noteModel _) fun _ =>
    Keeps.bind (R.plain _ rfl) fun _ => (R.advanceCalm rfl rfl).bindKeeps fun _ h => R.applyCalm h

theorem failStart (turn : SendTurn) (e : String) : Keeps I (failStart ctx turn e) :=
  Keeps.current.bind fun _ => Keeps.bind R.close fun _ => Keeps.bind (R.finishTurn _ _) fun _ =>
    Keeps.bind (R.db _ rfl) fun _ => R.db _ rfl

theorem reconfigure (config : LaunchConfig) : Keeps I (reconfigure ctx config) := by
  refine Keeps.current.bind fun w => ?_
  split
  · exact Keeps.pure ()
  · exact Keeps.ite (Keeps.pure ()) (Keeps.bind (Keeps.bailIf _ _) fun _ => R.close)

theorem acceptTurn (turn : SendTurn) {onAdmitted : Act α Unit} (h : Keeps I onAdmitted) :
    Keeps I (acceptTurn ctx turn onAdmitted) := by
  refine Keeps.bind (R.read _) fun accepted => Keeps.ite (Keeps.pure _) ?_
  exact Keeps.bind (R.read _) fun session => Keeps.bind (Keeps.bailIf _ _) fun _ =>
    Keeps.current.bind fun w => Keeps.bind (Keeps.bailIf _ _) fun _ =>
    Keeps.bind (Keeps.bailIf _ _) fun _ => Keeps.bind (R.reconfigure _) fun _ =>
    Keeps.bind (R.db _ rfl) fun _ => Keeps.bind h fun _ =>
    Keeps.bind (Keeps.rescue (R.startTurn turn) (R.failStart turn)) fun _ => Keeps.pure _

theorem mustQueue (turn : SendTurn) (allowQueue pendingInputs : Bool) :
    Keeps I (mustQueue ctx turn allowQueue pendingInputs) :=
  Keeps.ite (Keeps.current.bind fun _ => Keeps.bind (R.read _) fun _ => Keeps.bind (R.read _) fun _ =>
    Keeps.bind (Keeps.bailIf _ _) fun _ => Keeps.pure _) (Keeps.pure _)

theorem admitTurn (turn : SendTurn) (allowQueue pendingInputs : Bool) {onAdmitted : Act α Unit}
    (h : Keeps I onAdmitted) : Keeps I (admitTurn ctx turn allowQueue pendingInputs onAdmitted) := by
  refine Keeps.bind (Keeps.bailIf _ _) fun _ =>
    Keeps.bind (R.mustQueue _ _ _) fun enqueue => Keeps.ite ?_ ?_
  · exact Keeps.bind (R.db _ rfl) fun _ =>
      Keeps.bind (R.update fun _ => ⟨rfl, rfl, rfl, rfl⟩) fun _ => Keeps.pure _
  · exact Keeps.bind (Keeps.when (R.db _ rfl)) fun _ =>
      Keeps.bind (R.acceptTurn turn h) fun _ => Keeps.pure _

theorem receiveTurn (turn : SendTurn) (allowQueue pendingInputs : Bool) {onAdmitted : Act α Unit}
    (h : Keeps I onAdmitted) :
    Keeps I (receiveTurn ctx turn allowQueue pendingInputs onAdmitted) := by
  refine Keeps.bind (R.read _) fun known => ?_
  split
  · exact Keeps.pure _
  · exact Keeps.bind (R.read _) fun _ => Keeps.ite (Keeps.pure _) (R.admitTurn _ _ _ h)

/-! ## The loop -/

theorem launch (config : LaunchConfig) : Keeps I (launch ctx config) :=
  Keeps.rescue (Keeps.bind (R.spawn _) fun _ => (R.advanceCalm rfl rfl).bindKeeps fun _ h =>
    R.applyCalm h) fun _ => Keeps.bind R.drop fun _ => Keeps.fail _

theorem renameTitle (title : String) (waiter : ℕ) : Keeps I (renameTitle ctx title waiter) := by
  refine Keeps.current.bind fun w => ?_
  split
  · exact R.reply _ _
  · refine Keeps.ite (R.reply _ _) (Keeps.bind R.freshUuid fun id =>
      (R.advanceCalm rfl rfl).attempt.bindKeeps fun result h => ?_)
    split
    · exact R.reply _ _
    · exact Keeps.bind (R.process _ fun _ => ⟨rfl, rfl, rfl⟩) fun _ => R.applyCalm (h _ rfl)

theorem openSession (config : LaunchConfig) (waiter : ℕ) :
    Keeps I (openSession ctx config waiter) := by
  refine Keeps.current.bind fun w =>
    Keeps.bind (Keeps.attempt (Keeps.when (R.launch _))) fun result => ?_
  split
  · exact R.reply _ _
  · exact Keeps.current.bind fun w =>
      Keeps.ite (R.reply _ _) (R.update fun _ => ⟨rfl, rfl, rfl, rfl⟩)

theorem cancelImmediate (message : String) : Keeps I (cancelImmediate message : Act α Unit) :=
  Keeps.current.bind fun _ => Keeps.bind (R.update fun _ => ⟨rfl, rfl, rfl, rfl⟩) fun _ =>
    R.reply _ _

theorem abandonForwarded : Keeps I (abandonForwarded ctx) :=
  Keeps.bind R.close fun _ => Keeps.bind (R.update fun _ => ⟨rfl, rfl, rfl, rfl⟩) fun _ =>
    Keeps.bind (R.db _ rfl) fun _ => R.db _ rfl

theorem sendInterrupt : Keeps I (sendInterrupt ctx) :=
  Keeps.bind (R.process _ fun _ => ⟨rfl, rfl, rfl⟩) fun _ => (R.advanceCalm rfl rfl).bindKeeps fun _ h =>
    R.applyCalm h

theorem interrupt (waiter : ℕ) : Keeps I (interrupt ctx waiter) := by
  refine Keeps.bind (R.cancelImmediate _) fun _ => Keeps.current.bind fun w => Keeps.ite ?_ ?_
  · exact Keeps.bind R.abandonForwarded fun _ => Keeps.bind (R.db _ rfl) fun _ =>
      Keeps.bind (R.finishTurn _ _) fun _ => Keeps.bind (R.db _ rfl) fun _ => R.reply _ _
  · split
    · exact R.reply _ _
    · exact Keeps.ite (R.reply _ _) (Keeps.bind (R.process _ fun _ => ⟨rfl, rfl, rfl⟩) fun _ =>
        Keeps.when R.sendInterrupt)

theorem forgetConfig (requestId : String) : Keeps I (forgetConfig requestId : Act α Unit) :=
  R.update fun _ => ⟨rfl, rfl, rfl, rfl⟩

theorem prepareHandOff (requestId : String) (revision : ℕ) (config : LaunchConfig) :
    Gives I (prepareHandOff ctx requestId revision config)
      fun actions => ∀ action ∈ actions, action.Calm quiet :=
  (Gives.of_keeps Keeps.current).bind fun _ _ => (Gives.of_keeps (Keeps.bailIf _ _)).bind fun _ _ =>
    (Gives.of_keeps (R.theProcess _)).bind fun _ _ => (Gives.of_keeps (Keeps.bailIf _ _)).bind
    fun _ _ => (Gives.of_keeps (R.read _)).bind fun _ _ => (Gives.of_keeps R.freshUuid).bind
    fun _ _ => (R.advanceCalm rfl rfl).attempt.bind fun _ h => (Gives.of_keeps (R.plain _ rfl)).bind
    fun _ _ => Gives.lift h

theorem handOff (requestId : String) (revision : ℕ) (config : LaunchConfig) (waiter : ℕ) :
    Keeps I (handOff ctx requestId revision config waiter) := by
  refine (R.prepareHandOff _ _ _).attempt.bindKeeps fun prepared h => ?_
  split
  · exact R.reply _ _
  · refine Keeps.bind (Keeps.attempt (Keeps.bind (R.db _ rfl) fun _ =>
      Keeps.bind (R.update fun _ => ⟨rfl, rfl, rfl, rfl⟩) fun _ =>
      Keeps.bind (R.forgetConfig _) fun _ => R.applyCalm (h _ rfl))) fun result => ?_
    split
    · exact Keeps.bind (Keeps.attempt (R.read _)) fun _ => R.reply _ _
    · exact Keeps.bind (R.reply _ _) fun _ => Keeps.fail _

theorem prepareSend (interrupt : Bool) (requestId : String) (revision : ℕ) (config : LaunchConfig) :
    Keeps I (prepareSend ctx interrupt requestId revision config) :=
  Keeps.current.bind fun _ => Keeps.bind (Keeps.bailIf _ _) fun _ =>
    Keeps.bind (Keeps.bailIf _ _) fun _ => Keeps.bind (Keeps.bailIf _ _) fun _ =>
    Keeps.bind (Keeps.bailIf _ _) fun _ => Keeps.bind (R.read _) fun _ =>
    Keeps.bind (R.read _) fun _ => Keeps.bind (R.db _ rfl) fun _ => Keeps.pure _

theorem sendNext (interrupt : Bool) (requestId : String) (revision : ℕ) (config : LaunchConfig)
    (waiter : ℕ) : Keeps I (sendNext ctx interrupt requestId revision config waiter) := by
  refine Keeps.bind (Keeps.attempt (R.prepareSend _ _ _ _)) fun prepared => ?_
  split
  · exact R.reply _ _
  · refine Keeps.bind (R.update fun _ => ⟨rfl, rfl, rfl, rfl⟩) fun _ => Keeps.current.bind fun w =>
      Keeps.ite ?_ (Keeps.ite ?_ (Keeps.pure ()))
    · exact Keeps.bind R.abandonForwarded fun _ => Keeps.bind (R.finishTurn _ _) fun _ => R.db _ rfl
    · exact Keeps.bind (R.process _ fun _ => ⟨rfl, rfl, rfl⟩) fun _ => R.sendInterrupt

theorem queueSnapshot : Keeps I (queueSnapshot ctx) := R.read _

theorem changeQueue (action : QueueAction) : Keeps I (changeQueue ctx action) := by
  refine Keeps.current.bind fun w => Keeps.bind (Keeps.bailIf _ _) fun _ => ?_
  cases action with
  | dispatch interrupt requestId revision config => exact Keeps.fail _
  | take requestId revision =>
    exact Keeps.bind (R.read _) fun _ => Keeps.bind (R.db _ rfl) fun _ =>
      Keeps.bind (R.forgetConfig _) fun _ => Keeps.pure _
  | edit requestId revision text =>
    exact Keeps.bind (R.db _ rfl) fun _ => Keeps.bind (Keeps.when (R.forgetConfig _)) fun _ =>
      R.queueSnapshot
  | reorder expected order => exact Keeps.bind (R.db _ rfl) fun _ => R.queueSnapshot
  | clear =>
    exact Keeps.bind (R.db _ rfl) fun _ =>
      Keeps.bind (R.update fun _ => ⟨rfl, rfl, rfl, rfl⟩) fun _ => R.queueSnapshot
  | resume configs =>
    exact Keeps.bind (R.read _) fun _ => Keeps.bind (Keeps.bailIf _ _) fun _ =>
      Keeps.bind (R.update fun _ => ⟨rfl, rfl, rfl, rfl⟩) fun _ =>
      Keeps.bind (R.db _ rfl) fun _ => R.queueSnapshot

theorem queue (action : QueueAction) (waiter : ℕ) : Keeps I (queue ctx action waiter) := by
  refine Keeps.current.bind fun w => ?_
  split
  · exact Keeps.ite (R.handOff _ _ _ _) (R.sendNext _ _ _ _ _)
  · exact Keeps.bind (Keeps.attempt (R.changeQueue _)) fun _ => R.reply _ _

theorem send (turn : SendTurn) (allowQueue : Bool) (waiter : ℕ) :
    Keeps I (send ctx turn allowQueue waiter) := by
  refine Keeps.bind (R.update fun _ => ⟨rfl, rfl, rfl, rfl⟩) fun _ => Keeps.current.bind fun w =>
    Keeps.bind (Keeps.attempt (R.receiveTurn _ _ _ ?_)) fun result => Keeps.current.bind fun w =>
      Keeps.ite (Keeps.pure ()) (R.reply _ _)
  exact Keeps.bind (R.update fun _ => ⟨rfl, rfl, rfl, rfl⟩) fun _ => R.reply _ _

theorem settleCancelled : Keeps I (settleCancelled ctx) :=
  Keeps.bind (R.db _ rfl) fun _ => Keeps.bind R.status fun _ => Keeps.when (R.db _ rfl)

theorem cancel (waiter : Option ℕ) (onlyIfIdle : Bool) : Keeps I (cancel ctx waiter onlyIfIdle) := by
  refine Keeps.bind (Keeps.when (Keeps.bind (R.update fun _ => ⟨rfl, rfl, rfl, rfl⟩) fun _ =>
    Keeps.bind (Keeps.attempt (R.db _ rfl)) fun _ => Keeps.pure ())) fun _ =>
    Keeps.current.bind fun w => Keeps.ite ?_ ?_
  · exact Keeps.bind (R.reply _ _) fun _ => Keeps.pure _
  · exact Keeps.bind (Keeps.attempt (R.db _ rfl)) fun _ => Keeps.bind (R.cancelImmediate _) fun _ =>
      Keeps.current.bind fun w => Keeps.bind R.close fun _ =>
      Keeps.bind (Keeps.attempt (R.finishTurn _ _)) fun _ =>
      Keeps.bind (Keeps.attempt R.settleCancelled) fun _ => Keeps.bind (R.reply _ _) fun _ =>
      Keeps.pure _

theorem resolve (waiter : ℕ) {m : Act α Unit} (hm : Keeps I m) : Keeps I (resolve waiter m) :=
  Keeps.bind (Keeps.attempt hm) fun _ => Keeps.bind (R.reply _ _) fun _ => Keeps.lift _

theorem control {c : Control} (h : c.decides = false) : Keeps I (control ctx c) := by
  cases c with
  | child => exact Keeps.pure ()
  | renameTitle title waiter => exact R.renameTitle title waiter
  | «open» config waiter => exact R.openSession config waiter
  | interrupt waiter => exact R.interrupt waiter
  | send turn allowQueue waiter => exact R.send turn allowQueue waiter
  | queue action waiter => exact R.queue action waiter
  | cancel waiter onlyIfIdle => exact Keeps.pure ()
  | answerQuestion id answers waiter => cases h
  | approval id allow waiter => cases h

theorem immediateExpired : Keeps I (immediateExpired ctx) := by
  refine Keeps.current.bind fun w => ?_
  split
  · exact Keeps.pure ()
  · exact Keeps.bind (R.cancelImmediate _) fun _ => R.db _ rfl

theorem handle {wake : Wake} (h : wake.speaks = false) : Keeps I (handle ctx wake) := by
  cases wake with
  | control c => exact R.control h
  | output o =>
    cases o with
    | line line => cases h
    | ended => exact Keeps.fail _
    | unreadable e => exact Keeps.bind (R.read _) fun _ => Keeps.fail _
  | immediateDeadline => exact R.immediateExpired
  | initDeadline => exact Keeps.fail _
  | turnDeadline => exact Keeps.fail _
  | handoffDeadline => exact Keeps.fail _

theorem settleFailed (message : String) : Keeps I (settleFailed ctx message) :=
  Keeps.bind (R.db _ rfl) fun _ => R.db _ rfl

theorem recover (e : String) : Keeps I (recover ctx e) := by
  refine Keeps.bind (R.update fun _ => ⟨rfl, rfl, rfl, rfl⟩) fun _ =>
    Keeps.bind (Keeps.attempt (R.db _ rfl)) fun _ => Keeps.bind (R.cancelImmediate _) fun _ =>
    Keeps.bind (Keeps.attempt (R.db _ rfl)) fun _ => Keeps.current.bind fun w =>
    Keeps.bind (R.reply _ _) fun _ => Keeps.bind (R.process _ fun _ => ⟨rfl, rfl, rfl⟩) fun _ =>
    Keeps.bind R.close fun _ => Keeps.bind (Keeps.attempt (R.finishTurn _ _)) fun _ =>
    Keeps.bind (Keeps.attempt (R.settleFailed _)) fun _ => ?_
  split
  · exact Keeps.pure ()
  · exact Keeps.bind (Keeps.attempt (R.launch _)) fun _ => Keeps.pure ()

theorem answerOpening : Keeps I (answerOpening : Act α Unit) := by
  refine Keeps.current.bind fun w => Keeps.ite ?_ (Keeps.ite ?_ (Keeps.pure ()))
  · exact Keeps.bind (Keeps.forEach fun _ _ => R.reply _ _) fun _ =>
      R.update fun _ => ⟨rfl, rfl, rfl, rfl⟩
  · exact Keeps.bind (Keeps.forEach fun _ _ => R.reply _ _) fun _ =>
      R.update fun _ => ⟨rfl, rfl, rfl, rfl⟩

theorem afterEnd (previous : Option Status) : Keeps I (afterEnd ctx previous) := by
  refine Keeps.bind R.status fun status => Keeps.bind (Keeps.when (R.db _ rfl)) fun _ =>
    Keeps.current.bind fun w => Keeps.when ?_
  exact Keeps.bind (R.update fun _ => ⟨rfl, rfl, rfl, rfl⟩) fun _ => R.db _ rfl

theorem sendImmediate (previous : Option Status) (status : Status) (pending : Immediate) :
    Keeps I (sendImmediate ctx previous status pending) :=
  Keeps.bind (Keeps.bailIf _ _) fun _ => Keeps.bind (R.acceptTurn _ (Keeps.pure ())) fun _ =>
    Keeps.bind (R.update fun _ => ⟨rfl, rfl, rfl, rfl⟩) fun _ => Keeps.bind R.status fun _ =>
    Keeps.bind (Keeps.bailIf _ _) fun _ => Keeps.bind (R.db _ rfl) fun _ => R.queueSnapshot

theorem drainImmediate (previous : Option Status) : Keeps I (drainImmediate ctx previous) := by
  refine Keeps.bind R.status fun status => Keeps.current.bind fun w => ?_
  split
  · exact Keeps.pure ()
  · exact Keeps.when (Keeps.bind (R.update fun _ => ⟨rfl, rfl, rfl, rfl⟩) fun _ =>
      Keeps.bind (Keeps.attempt (R.sendImmediate _ _ _)) fun _ => R.reply _ _)

theorem dispatchQueued (entry : QueuedMessage) (fingerprint : Option String) :
    Keeps I (dispatchQueued ctx entry fingerprint) :=
  Keeps.current.bind fun _ => Keeps.bind (R.forgetConfig _) fun _ =>
    Keeps.bind (Keeps.orError _ _) fun _ => Keeps.bind (R.acceptTurn _ (Keeps.pure ())) fun _ =>
    Keeps.bind R.status fun _ => Keeps.bailIf _ _

theorem drainQueue : Keeps I (drainQueue ctx) := by
  refine Keeps.bind R.status fun status => Keeps.bind (R.read _) fun paused =>
    Keeps.current.bind fun w => Keeps.ite (Keeps.bind (R.read _) fun entries => ?_) (Keeps.pure ())
  split
  · exact Keeps.pure ()
  · exact R.dispatchQueued _ _

theorem drain (previous : Option Status) : Keeps I (drain ctx previous) :=
  Keeps.rescue (Keeps.bind (R.afterEnd _) fun _ => Keeps.bind (R.drainImmediate _) fun _ =>
    R.drainQueue) fun _ => Keeps.bind (R.update fun _ => ⟨rfl, rfl, rfl, rfl⟩) fun _ =>
    Keeps.bind (Keeps.attempt (R.db _ rfl)) fun _ => Keeps.bind (Keeps.attempt (R.db _ rfl)) fun _ =>
    Keeps.pure ()

/-- What is done after the event that woke the actor. -/
theorem afterHandle (previous : Option Status) :
    Keeps I (do
      Act.answerOpening
      Act.drain ctx previous
      pure true : Act α Bool) :=
  Keeps.bind R.answerOpening fun _ => Keeps.bind (R.drain _) fun _ => Keeps.pure _

/-- One turn of the loop keeps the invariant when its event does. -/
theorem turn {w : Actor α} (hw : I w) {wake : Wake}
    (h : wp (Act.handle ctx wake) (fun _ => I) (fun _ => I) w) :
    wp (turn ctx wake) (fun _ => I) (fun _ => I) w := by
  have hstatus : wp (attempt (Act.status ctx)) (fun _ v => v = w) (fun _ _ => False) w :=
    wp_attempt.2 (wp_bind.2 (wp_bind.2 (wp_current.2 (wp_lift.2 ⟨fun _ _ => rfl, fun _ _ => rfl⟩))))
  refine wp_bind.2 (wp_mono hstatus (fun previous v hv => ?_) fun _ _ hf => hf.elim)
  subst hv
  split
  · exact R.cancel _ _ v hw
  · exact wp_bind.2 (wp_mono (wp_rescue.2 (wp_mono h (fun _ _ ht => ht) fun e t ht => R.recover e t ht))
      (fun _ t ht => R.afterHandle _ t ht) fun _ _ ht => ht)

end Rules

end Act

end LatteWork
