import LatteWork.Proofs.ClaudeTurns

/-!
# The turns of a Claude session alternate

Each accepted start brings the agent one prompt, in order, the first one once the agent has
acknowledged its initialization. Turns start and end by turns, and an end is the last thing told by
the result that brings it (`turn_discipline`).
-/

namespace LatteWork

namespace Claude

open Prog

/-- What an adapter took, with its answers. -/
abbrev Log := List (Input × List Action)

/-- A refused input that is no message leaves the adapter as it was. -/
def survivable : Input → Bool
  | .message _ => false
  | _ => true

/-- The prompt of an accepted start. -/
def startOf : Input → Option String
  | .start text => some text
  | _ => none

/-- The input that is handed over, under its uuid. -/
def handOff : Input → Option (String × String)
  | .queue requestId _ uuid => some (uuid, requestId)
  | _ => none

def promptOf : Action → Option Json
  | .write frame => if kind frame = "user" then some frame else none
  | _ => none

/-- The prompts an input brings the agent, other than what is handed over during a turn. -/
def promptsOf (i : Input) (out : List Action) : List Json :=
  if (handOff i).isSome then [] else out.filterMap promptOf

/-- A turn starts, or ends. -/
def markOf : Action → Option Bool
  | .turnStarted => some true
  | .finished .. => some false
  | _ => none

def marksOf (i : Input) (out : List Action) : List Bool :=
  (startOf i).toList.map (fun _ => true) ++ out.filterMap markOf

def starts (log : Log) : List String := log.filterMap fun e => startOf e.1

def prompts (log : Log) : List Json := log.flatMap fun e => promptsOf e.1 e.2

def marks (log : Log) : List Bool := log.flatMap fun e => marksOf e.1 e.2

/-- Marks that alternate, from one that came before them to the last one. -/
def Alternates : Bool → List Bool → Bool → Prop
  | before, [], last => before = last
  | before, mark :: rest, last => mark ≠ before ∧ Alternates mark rest last

/-- A turn was started and has not ended. -/
def Phase.inTurn : Phase → Bool
  | .initializing _ | .running => true
  | _ => false

/-- The prompt that waits for the acknowledgement. -/
def Phase.waiting : Phase → List Json
  | .initializing text => [.obj (prompt text)]
  | _ => []

/-- The message of an input. -/
def messageOf : Input → Option Json
  | .message line => line
  | _ => none

/-- The end of a turn comes from a result of the turn, and nothing comes after it. -/
def EndsLast (i : Input) (out : List Action) : Prop :=
  out.any Action.isFinished = true → ∃ m front failed message, i = .message (some m) ∧
    endsTurn m = true ∧ out = front ++ [.finished failed message] ∧
      front.any Action.isFinished = false

theorem Alternates.append {b c d : Bool} {l : List Bool} (h : Alternates b l c) :
    ∀ {l' : List Bool}, Alternates c l' d → Alternates b (l ++ l') d := by
  induction l generalizing b with
  | nil =>
    intro l' h'
    obtain rfl : b = c := h
    exact h'
  | cons x l ih => exact fun h' => ⟨h.1, ih h.2 h'⟩

variable {a : Claude} {c c' : Turns} {i : Input} {out : List Action} {log : Log} {m : Json}

theorem Remarks.prompts (h : Remarks out) : out.filterMap promptOf = [] := by
  rw [List.filterMap_eq_nil_iff]
  intro x hx
  have := h x hx
  cases x <;> simp_all [remark, isPrompt, promptOf]

theorem Remarks.marks (h : Remarks out) : out.filterMap markOf = [] := by
  rw [List.filterMap_eq_nil_iff]
  intro x hx
  have := h x hx
  cases x <;> simp_all [remark, markOf]

theorem Remarks.ends (h : Remarks out) : out.any Action.isFinished = false := by
  rw [List.any_eq_false]
  intro x hx
  have := h x hx
  cases x <;> simp_all [remark, Action.isFinished]

theorem report_cases (c : Turns) :
    c.report.filterMap promptOf = [] ∧ c.report.filterMap markOf = [] ∧
      c.report.any Action.isFinished = false := by
  rw [Turns.report]
  split <;> exact ⟨rfl, rfl, rfl⟩

theorem promptsOf_remarks (h : Remarks out) : promptsOf i out = [] := by
  rw [promptsOf, h.prompts]
  exact ite_self _

/-- A prompt goes out for each start, at once or when the initialization is acknowledged. -/
theorem Turns.Moves.prompts (hm : c.Moves i out c') :
    promptsOf i out ++ c'.phase.waiting =
      c.phase.waiting ++ (startOf i).toList.map fun text => .obj (prompt text) := by
  cases hm with
  | aside hstart _ _ hout =>
    have hnone : startOf i = none := by
      cases i with
      | start text => exact absurd rfl (hstart text)
      | _ => rfl
    rw [promptsOf_remarks hout, hnone]
    exact (List.append_nil _).symm
  | @«open» _ _ phase hp hi hphase hout =>
    have hnone : startOf i = none := by rcases hi with rfl | rfl <;> rfl
    have hwaiting : phase.waiting = [] := by
      simp only [List.mem_cons, List.not_mem_nil, or_false] at hphase
      rcases hphase with rfl | rfl <;> rfl
    rw [promptsOf_remarks hout, hnone, hp]
    exact hwaiting
  | queue hp => rw [hp]; rfl
  | first hp hout => rw [promptsOf_remarks hout, hp]; rfl
  | start hp => rw [hp]; rfl
  | message hout => rw [promptsOf_remarks hout]; exact (List.append_nil _).symm
  | ready _ hp => rw [hp]; rfl
  | @opened m out phase _ hp hphase hout =>
    have hwaiting : phase.waiting = [] := by
      simp only [List.mem_cons, List.not_mem_nil, or_false] at hphase
      rcases hphase with rfl | rfl <;> rfl
    have hbefore : c.phase.waiting = [] := by
      simp only [List.mem_cons, List.not_mem_nil, or_false] at hp
      rcases hp with hp | hp <;> rw [hp] <;> rfl
    rw [promptsOf_remarks hout, hbefore]
    exact hwaiting
  | revived hp hout =>
    rw [hp, promptsOf, List.filterMap_cons, hout.prompts]
    rfl
  | @trailing m _ hp =>
    rw [hp, promptsOf, (report_cases _).1]
    show [] ++ c.phase.waiting = _
    rw [hp]
    rfl
  | @result m rest message _ hp hrest =>
    have hbefore : c.phase.waiting = [] := by rcases hp with hp | hp <;> rw [hp] <;> rfl
    have hstarted : (if c.phase = .betweenTurns then [Action.turnStarted] else []).filterMap promptOf =
        [] := by split <;> rfl
    rw [promptsOf, List.filterMap_append, List.filterMap_append, List.filterMap_append,
      (report_cases _).1, hstarted, hrest.prompts, hbefore]
    rfl

/-- The marks of one input go on from those before it. -/
theorem Turns.Moves.marks (hm : c.Moves i out c') :
    Alternates c.phase.inTurn (marksOf i out) c'.phase.inTurn := by
  cases hm with
  | aside hstart _ _ hout =>
    have hnone : startOf i = none := by
      cases i with
      | start text => exact absurd rfl (hstart text)
      | _ => rfl
    rw [marksOf, hout.marks, hnone]
    rfl
  | @«open» _ _ phase hp hi hphase hout =>
    have hnone : startOf i = none := by rcases hi with rfl | rfl <;> rfl
    simp only [List.mem_cons, List.not_mem_nil, or_false] at hphase
    rw [marksOf, hout.marks, hnone, hp]
    rcases hphase with rfl | rfl <;> rfl
  | queue => rfl
  | first hp hout =>
    rw [marksOf, hout.marks, hp]
    exact ⟨(by decide : true ≠ false), rfl⟩
  | start hp =>
    rw [hp]
    exact ⟨(by decide : true ≠ false), rfl⟩
  | message hout =>
    rw [marksOf, hout.marks]
    rfl
  | ready _ hp =>
    rw [hp]
    rfl
  | opened _ hp hphase hout =>
    simp only [List.mem_cons, List.not_mem_nil, or_false] at hp hphase
    rw [marksOf, hout.marks]
    rcases hp with hp | hp <;> rcases hphase with rfl | rfl <;> rw [hp] <;> rfl
  | revived hp hout =>
    rw [hp, marksOf, List.filterMap_cons, hout.marks]
    exact ⟨by decide, rfl⟩
  | @trailing m _ hp =>
    rw [marksOf, (report_cases _).2.1]
    rfl
  | @result m rest message _ hp hrest =>
    rw [marksOf, List.filterMap_append, List.filterMap_append, List.filterMap_append,
      (report_cases _).2.1, hrest.marks]
    rcases hp with hp | hp
    · rw [hp, if_neg (by simp)]
      exact ⟨by decide, rfl⟩
    · rw [hp, if_pos rfl]
      exact ⟨by decide, by decide, rfl⟩

theorem Turns.Moves.endsLast (hm : c.Moves i out c') : EndsLast i out := by
  have hquiet : ∀ {l : List Action}, Remarks l → l.any Action.isFinished = true → False := by
    intro l hl h
    rw [hl.ends] at h
    cases h
  intro hf
  cases hm with
  | aside _ _ _ hout => exact (hquiet hout hf).elim
  | «open» _ _ _ hout => exact (hquiet hout hf).elim
  | queue => cases hf
  | first _ hout => exact (hquiet hout hf).elim
  | start => cases hf
  | message hout => exact (hquiet hout hf).elim
  | ready => cases hf
  | opened _ _ _ hout => exact (hquiet hout hf).elim
  | revived _ hout => exact (hquiet hout hf).elim
  | trailing =>
    rw [(report_cases _).2.2] at hf
    cases hf
  | @result m rest message hm _ hrest =>
    refine ⟨m, _, _, _, rfl, hm, rfl, ?_⟩
    have hstarted : (if c.phase = .betweenTurns then [Action.turnStarted] else []).any
        Action.isFinished = false := by split <;> rfl
    rw [List.any_append, List.any_append, (report_cases _).2.2, hstarted, hrest.ends]
    rfl

/-- The initialization was acknowledged. -/
def Acknowledged (log : Log) : Prop := ∃ e ∈ log, (messageOf e.1).any acknowledges = true

def Phase.initialized : Phase → Bool
  | .running | .betweenTurns | .finished => true
  | _ => false

theorem report_isPrompt (c : Turns) : c.report.any isPrompt = false := by
  rw [Turns.report]
  split <;> rfl

theorem Remarks.isPrompt (h : Remarks out) : out.any isPrompt = false := by
  rw [List.any_eq_false]
  intro x hx hp
  have := h x hx
  cases x <;> simp_all [remark, Claude.isPrompt]

/-- A session goes on from its acknowledgement, and brings no prompt before it. -/
theorem Turns.Moves.acknowledged (hm : c.Moves i out c')
    (h : c.phase.initialized = true → Acknowledged log) :
    (c'.phase.initialized = true → Acknowledged (log ++ [(i, out)])) ∧
      (out.any isPrompt = true → Acknowledged (log ++ [(i, out)])) := by
  have hkeep : Acknowledged log → Acknowledged (log ++ [(i, out)]) := fun ⟨e, he, hack⟩ =>
    ⟨e, List.mem_append.2 (.inl he), hack⟩
  have hnow : ∀ {m}, i = .message (some m) → acknowledges m = true →
      Acknowledged (log ++ [(i, out)]) := by
    rintro m rfl hack
    exact ⟨_, List.mem_concat_self, hack⟩
  have hquiet : ∀ {l : List Action}, Remarks l → l.any Claude.isPrompt = true →
      Acknowledged (log ++ [(i, out)]) := by
    intro l hl h
    rw [hl.isPrompt] at h
    cases h
  cases hm with
  | aside _ _ _ hout => exact ⟨fun hp => hkeep (h hp), hquiet hout⟩
  | @«open» _ _ phase hp hi hphase hout =>
    refine ⟨fun hp => ?_, hquiet hout⟩
    simp only [List.mem_cons, List.not_mem_nil, or_false] at hphase
    rcases hphase with rfl | rfl <;> cases hp
  | queue hp => exact ⟨fun hp => hkeep (h hp), fun _ => hkeep (h (by rw [hp]; rfl))⟩
  | first _ hout => exact ⟨fun hp => (by cases hp), hquiet hout⟩
  | start hp =>
    have hack := hkeep (h (by rw [hp]; rfl))
    exact ⟨fun _ => hack, fun _ => hack⟩
  | message hout => exact ⟨fun hp => hkeep (h hp), hquiet hout⟩
  | ready hack => exact ⟨fun _ => hnow rfl hack, fun _ => hnow rfl hack⟩
  | opened hack => exact ⟨fun _ => hnow rfl hack, fun _ => hnow rfl hack⟩
  | revived hp =>
    have hack := hkeep (h (by rw [hp]; rfl))
    exact ⟨fun _ => hack, fun _ => hack⟩
  | trailing _ hp =>
    have hack := hkeep (h (by rw [hp]; rfl))
    exact ⟨fun _ => hack, fun _ => hack⟩
  | result _ hp =>
    have hack := hkeep (h (by rcases hp with hp | hp <;> rw [hp] <;> rfl))
    exact ⟨fun _ => hack, fun _ => hack⟩

/-! ## Runs -/

/-- What holds between the inputs of a session. -/
structure Disciplined (a : Claude) (log : Log) : Prop where
  prompts : prompts log ++ a.phase.waiting = (starts log).map fun text => .obj (prompt text)
  marks : Alternates false (marks log) a.phase.inTurn
  ends : ∀ e ∈ log, EndsLast e.1 e.2
  initialized : a.phase.initialized = true → Acknowledged log
  acknowledged : ∀ before e after, log = before ++ e :: after → e.2.any isPrompt = true →
    Acknowledged (before ++ [e])

theorem starts_concat : starts (log ++ [(i, out)]) = starts log ++ (startOf i).toList := by
  rw [starts, List.filterMap_append]
  rcases h : startOf i <;> simp [starts, h]

theorem prompts_concat : Claude.prompts (log ++ [(i, out)]) = Claude.prompts log ++ promptsOf i out := by
  simp [Claude.prompts]

theorem marks_concat : Claude.marks (log ++ [(i, out)]) = Claude.marks log ++ marksOf i out := by
  simp [Claude.marks]

theorem Disciplined.next {a' : Claude} (h : a.Disciplined log)
    (hm : a.turns.Moves i out a'.turns) : a'.Disciplined (log ++ [(i, out)]) := by
  have hinit : a.turns.phase.initialized = true → Acknowledged log := h.initialized
  obtain ⟨hinit, hack⟩ := hm.acknowledged hinit
  refine ⟨?_, ?_, fun e he => ?_, hinit, fun before e after hlog he => ?_⟩
  · have hp : promptsOf i out ++ a'.phase.waiting = a.phase.waiting ++ _ := hm.prompts
    rw [prompts_concat, starts_concat, List.map_append, List.append_assoc, hp, ← List.append_assoc,
      h.prompts]
  · rw [marks_concat]
    exact h.marks.append hm.marks
  · rcases List.mem_append.1 he with he | he
    · exact h.ends e he
    · rw [List.mem_singleton.1 he]
      exact hm.endsLast
  · rcases Machine.entry_cases hlog with ⟨rfl, rfl, _⟩ | ⟨rest, _, hbefore⟩
    · exact hack he
    · exact h.acknowledged before e rest hbefore he

theorem created_disciplined {session : Session} {config : LaunchConfig}
    (h : create session config = .ok a) : a.Disciplined [] := by
  simp only [create, Fallible.bind_eq_ok, Fallible.pure_eq_ok] at h
  obtain ⟨_, _, rfl⟩ := h
  refine ⟨rfl, rfl, by simp, fun h => (by cases h), fun before e after h => ?_⟩
  cases before <;> cases h

theorem run_disciplined {session : Session} {config : LaunchConfig}
    (hcreate : create session config = .ok a) (inputs : List Input) :
    Machine.Reached Disciplined (Machine.run advance survivable a inputs) := by
  refine Machine.run_invariant (created_disciplined hcreate) ?_ ?_ inputs
  · intro a log i out t h hrun
    exact h.next ((wp_run advance_spec hrun).1 out rfl)
  · intro a log i e t hl h hrun
    rw [(wp_run advance_spec hrun).2 e rfl (by rintro line rfl; cases hl)]
    exact h

/-- A result that says nothing new after its turn only settles the inputs that were named. -/
theorem trailing_result (ht : a.Trailing m) (hm : endsTurn m = true) :
    wp (advance (.message (some m))) (fun out a' => out = (a.turns.attributed m).report ∧
      a' = { attributed m a with
        queuedInputs := (a.turns.attributed m).settled.queued, consumedInputs := [] })
      (fun _ _ => False) a := by
  rw [endsTurn, Bool.and_eq_true, decide_eq_true_eq, Option.isNone_iff_eq_none] at hm
  obtain ⟨hk, hchild⟩ := hm
  have hphase : a.phase = .betweenTurns := ht.1
  have hne : ∀ s, s ≠ "result" → kind m ≠ s := fun s hs h => hs (h.symm.trans hk)
  have hshows : shows m = false := by
    rw [shows, hk]
    simp
  have hparent : ((m.index "parent_tool_use_id").str?.filter fun _ =>
      kind m ∈ ["assistant", "stream_event", "user"]) = none := by
    rw [Option.filter_eq_none_iff]
    intro _ _
    rw [hk]
    decide
  refine wp_bind.2 (wp_current.2 (wp_bind.2 (wp_bailIf.2 ⟨fun h => by simp [hphase] at h, fun _ => ?_⟩)))
  refine wp_bind.2 (wp_orError.2 ⟨?_, by simp⟩)
  rintro _ ⟨⟩
  rw [decode, hparent]
  refine wp_bind.2 (wp_update.2 (wp_bind.2 (wp_current.2 (wp_bind.2 ?_))))
  rw [if_neg (by simp [hshows])]
  refine wp_pure.2 (wp_bind.2 (wp_bind.2 (wp_current.2 (wp_ite.2 ⟨fun h => ?_, fun _ => ?_⟩))))
  · exact absurd h.1 (hne _ (by decide))
  split
  · rename_i h
    have := (Option.filter_eq_some_iff.1 h).2
    rw [decide_eq_true_eq] at this
    exact absurd this.1 (hne _ (by decide))
  have hsystem := hne "system" (by decide)
  rw [if_neg fun h => hsystem h.1.1, if_neg fun h => hsystem h.1.1, dispatch,
    if_neg (hne _ (by decide)), if_neg hsystem, if_neg (hne _ (by decide)), if_neg (hne _ (by decide)),
    if_neg (hne _ (by decide)), if_neg (hne _ (by decide)), if_neg (hne _ (by decide)), if_pos hk, result,
    hchild]
  refine wp_bind.2 (settle_spec (wp_bind.2 (wp_current.2 ?_)))
  exact wp_ite.2 ⟨fun _ => ⟨rfl, rfl⟩, fun h => absurd ht h⟩

theorem report_of_named (c : Turns) : (c.attributed m).report = [] ∨
    ∃ requests, (c.attributed m).report = [.inputsConsumed requests] ∧
      ∀ r ∈ requests, ∃ uuid ∈ named m ++ c.consumed, (uuid, r) ∈ c.queued := by
  rw [Turns.report]
  split
  · exact .inl rfl
  · refine .inr ⟨_, rfl, fun r hr => ?_⟩
    obtain ⟨uuid, hu, hlook⟩ := List.mem_filterMap.1 hr
    refine ⟨uuid, ?_, Assoc.mem_of_lookup hlook⟩
    rcases List.mem_union_iff.1 hu with hu | hu
    · exact List.mem_append.2 (.inl (List.mem_filter.1 hu).1)
    · exact List.mem_append.2 (.inr hu)

/-- Claude's turns: the prompts written are the accepted starts, in order, less the one that waits
for the acknowledgement; none is written before it; ends alternate with starts; and an end comes
last, from a result of the turn. -/
theorem turn_discipline (session : Session) (config : LaunchConfig) (a : Claude)
    (hcreate : create session config = .ok a) (inputs : List Input) :
    let life := Machine.run advance survivable a inputs
    (∃ phase : Phase, (life.ended = false → phase = life.state.phase) ∧
      prompts life.log ++ phase.waiting = (starts life.log).map (fun text => .obj (prompt text)) ∧
      Alternates false (marks life.log) phase.inTurn) ∧
    (∀ before e after, life.log = before ++ e :: after → e.2.any isPrompt = true →
      Acknowledged (before ++ [e])) ∧
    (∀ e ∈ life.log, EndsLast e.1 e.2) ∧
    (life.ended = false → ∀ m, life.state.Trailing m → endsTurn m = true →
      ∀ out a', (advance (.message (some m))).run life.state = (.ok out, a') →
        a'.phase = .betweenTurns ∧
        (out = [] ∨ ∃ requests, out = [.inputsConsumed requests] ∧
          ∀ r ∈ requests, ∃ uuid ∈ named m ++ life.state.consumedInputs,
            (uuid, r) ∈ life.state.queuedInputs)) := by
  intro life
  obtain ⟨s, hs, hlive⟩ := run_disciplined hcreate inputs
  refine ⟨⟨s.phase, fun hend => by rw [← hlive hend], hs.prompts, hs.marks⟩, hs.acknowledged, hs.ends,
    fun hend m ht hm out a' hrun => ?_⟩
  obtain ⟨rfl, rfl⟩ := (wp_run (trailing_result ht hm) hrun).1 out rfl
  exact ⟨ht.1, report_of_named _⟩

/-- The successful answer to `initialize`, with an empty catalog. -/
def acknowledgement : Input :=
  .message (some (.obj [("type", .str "control_response"), ("response",
    .obj [("subtype", .str "success"), ("request_id", .str "latte-init"),
      ("response", .obj [("commands", .arr [])])])]))

def resultOf (text : String) : Json := .obj [("type", .str "result"), ("result", .str text)]

/-- The agent repeats an input that it has read. -/
def replayOf (uuid : String) : Input :=
  .message (some (.obj [("type", .str "user"), ("isReplay", .bool true), ("uuid", .str uuid)]))

/-- A turn ends before the agent says that it has read the input handed over. -/
def lateReplay : List Input :=
  [.start "hello", acknowledgement, .queue "r" "more" "uuid", .message (some (resultOf "done")),
    replayOf "uuid"]

/-- A result that says nothing new is not always answered with nothing. -/
theorem trailing_result_reports :
    ¬∀ (session : Session) (config : LaunchConfig) (a : Claude), create session config = .ok a →
      ∀ inputs : List Input, let life := Machine.run advance survivable a inputs
      life.ended = false → ∀ m, life.state.Trailing m → endsTurn m = true →
        ((advance (.message (some m))).run life.state).1.toOption.map List.length = some 0 := by
  intro h
  have := h default {} _ rfl lateReplay (by decide +kernel) (resultOf "") (by decide +kernel) (by decide)
  revert this
  decide +kernel

theorem turn_discipline_lateReplay :
    let life := Machine.run advance survivable {} lateReplay
    life.ended = false ∧ ∀ e ∈ life.log, EndsLast e.1 e.2 :=
  ⟨by decide +kernel, (turn_discipline default {} {} rfl lateReplay).2.2.1⟩

end Claude

end LatteWork
