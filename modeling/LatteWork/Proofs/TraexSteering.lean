import LatteWork.Proofs.TraexCompletion

/-!
# What becomes of an input handed into a Traex turn

An input is outstanding from its hand-off until its answer and, when the answer accepts it, the end
of its turn are in. Whichever comes first, it is reported once or not at all (`steering_outcome`).
-/

namespace LatteWork

namespace Traex

open Prog Turns

/-- How often a log reports an input consumed. -/
def consumed (r : String) (log : Log) : ℕ := ((log.flatMap (·.2)).flatMap Action.consumes).count r

def rejections (r : String) (log : Log) : ℕ := (log.flatMap (·.2)).countP (Action.rejects r)

/-- The first end of a turn in a log: the turn its completion names, and whether it failed. -/
def ended (log : Log) : Option (Option String × Bool) :=
  log.findSome? fun e => (e.2.findSome? Action.failure?).map fun failed =>
    ((completionOf e.1).bind (·.2), failed)

/-- What became of an input handed into a turn. -/
inductive Outcome (r turn : String) (log : Log) : Prop
  | consumed : consumed r log = 1 → rejections r log = 0 → ended log = some (some turn, false) →
      Outcome r turn log
  | rejected : Traex.consumed r log = 0 → rejections r log = 1 →
      (∃ e ∈ log, refusal e.1 = true ∧ e.2.any (Action.rejects r) = true) → Outcome r turn log
  | lost : Traex.consumed r log = 0 → rejections r log = 0 → ended log = some (some turn, true) →
      Outcome r turn log

/-- Where a hand-off is, told from the state and from the log since. -/
inductive Stage (c : Turns) (r turn : String) (log : Log) : Prop
  | waiting {number} : (number, r, turn) ∈ c.steering → consumed r log = 0 → rejections r log = 0 →
      ended log = (if c.phase = .running then none else some (some turn, !c.completedSuccess)) →
      Stage c r turn log
  | accepted : r ∈ c.steered → c.turn = some turn → consumed r log = 0 → rejections r log = 0 →
      ended log = none → Stage c r turn log
  | closed : r ∉ c.outstanding → Outcome r turn log → Stage c r turn log

variable {c c' : Turns} {i : Input} {out : List Action} {log : Log} {r turn : String}

/-- Actions that report nothing of an input. -/
def Unreported (r : String) (out : List Action) : Prop :=
  (out.flatMap Action.consumes).count r = 0 ∧ out.countP (Action.rejects r) = 0

theorem consumed_concat : consumed r (log ++ [(i, out)]) =
    consumed r log + (out.flatMap Action.consumes).count r := by
  simp [consumed]

theorem rejections_concat : rejections r (log ++ [(i, out)]) =
    rejections r log + out.countP (Action.rejects r) := by
  simp [rejections]

theorem ended_concat : ended (log ++ [(i, out)]) =
    (ended log).or ((out.findSome? Action.failure?).map fun failed =>
      ((completionOf i).bind (·.2), failed)) := by
  simp [ended, List.findSome?_append]

theorem ended_quiet (h : out.findSome? Action.failure? = none) :
    ended (log ++ [(i, out)]) = ended log := by
  rw [ended_concat, h]
  exact Option.or_none

theorem Turns.Remarks.unreported (h : Remarks out) : Unreported r out := by
  constructor
  · refine List.count_eq_zero_of_not_mem fun hr => ?_
    obtain ⟨x, hx, hr⟩ := List.mem_flatMap.1 hr
    have := h x hx
    cases x <;> simp_all [Action.remark, Action.consumes]
  · rw [List.countP_eq_zero]
    intro x hx
    have := h x hx
    cases x <;> simp_all [Action.remark, Action.rejects]

theorem Turns.Remarks.unended (h : Remarks out) : out.findSome? Action.failure? = none := by
  rw [List.findSome?_eq_none_iff]
  intro x hx
  have := h x hx
  cases x <;> simp_all [Action.remark, Action.failure?]

theorem Unreported.append {more : List Action} (h : Unreported r out) (h' : Unreported r more) :
    Unreported r (out ++ more) := by
  rw [Unreported, List.flatMap_append, List.count_append, List.countP_append, h.1, h'.1, h.2, h'.2]
  exact ⟨rfl, rfl⟩

theorem unreported_frame {frame : Action} (h : frame.startsTurn = true) : Unreported r [frame] := by
  cases frame <;> simp_all [Action.startsTurn, Unreported, Action.consumes, Action.rejects]

theorem unreported_ending {success : Bool} {message : Option String} (h : r ∉ c.steered) :
    Unreported r (c.ending success message) := by
  rw [ending]
  split
  · exact ⟨by simpa [Action.consumes] using List.count_eq_zero_of_not_mem h, rfl⟩
  · exact ⟨rfl, rfl⟩

/-- An outcome stays while its input is not reported. -/
theorem Outcome.concat (h : Outcome r turn log) (hr : Unreported r out) :
    Outcome r turn (log ++ [(i, out)]) := by
  cases h with
  | consumed h₁ h₂ h₃ =>
    refine .consumed ?_ ?_ ?_
    · rw [consumed_concat, h₁, hr.1]
    · rw [rejections_concat, h₂, hr.2]
    · rw [ended_concat, h₃]
      rfl
  | rejected h₁ h₂ h₃ =>
    obtain ⟨e, he, h₃⟩ := h₃
    refine .rejected ?_ ?_ ⟨e, List.mem_append.2 (.inl he), h₃⟩
    · rw [consumed_concat, h₁, hr.1]
    · rw [rejections_concat, h₂, hr.2]
  | lost h₁ h₂ h₃ =>
    refine .lost ?_ ?_ ?_
    · rw [consumed_concat, h₁, hr.1]
    · rw [rejections_concat, h₂, hr.2]
    · rw [ended_concat, h₃]
      rfl

theorem mem_outstanding_of_steering {number : ℕ} (h : (number, r, turn) ∈ c.steering) :
    r ∈ c.outstanding :=
  List.mem_append.2 (.inr (List.mem_map.2 ⟨_, h, rfl⟩))

theorem mem_outstanding_of_steered (h : r ∈ c.steered) : r ∈ c.outstanding :=
  List.mem_append.2 (.inl h)

/-- Only what is outstanding is reported, and only a hand-off makes an input outstanding. -/
theorem Turns.Moves.unreported (hm : Moves c i out c') (hr : r ∉ c.outstanding)
    (hi : handOff i ≠ some r) : Unreported r out ∧ r ∉ c'.outstanding := by
  have hsteered : r ∉ c.steered := fun h => hr (mem_outstanding_of_steered h)
  have hsettle : ∀ n, r ∉ (c.settle n).outstanding := fun n h =>
    hr ((outstanding_sublist_settle n).subset h)
  have hother : ∀ {n r' turn}, (n, r', turn) ∈ c.steering → r' ≠ r := by
    rintro n r' turn hs rfl
    exact hr (mem_outstanding_of_steering hs)
  have hcompleted : ∀ id success, r ∉ (c.completed id success).outstanding := fun _ _ h =>
    hr (List.mem_append.2 (.inr h))
  have hsession : ∀ thread, Unreported r [.nativeSession thread] := fun _ => ⟨rfl, rfl⟩
  cases hm with
  | rest _ _ hout => exact ⟨hout.unreported, hr⟩
  | prepare _ _ _ hout => exact ⟨hout.unreported, hr⟩
  | «open» _ _ hout => exact ⟨hout.unreported, hr⟩
  | openStart _ _ hout hframe => exact ⟨hout.unreported.append (unreported_frame hframe), hr⟩
  | start _ _ _ hframe => exact ⟨unreported_frame hframe, hr⟩
  | @steer out r' prompt uuid number turn hqueue _ _ _ _ _ hout =>
    refine ⟨hout.unreported, fun h => ?_⟩
    rw [outstanding, List.map_append, ← List.append_assoc, List.mem_append] at h
    rcases h with h | h
    · exact hr h
    · have : r = r' := by simpa using h
      rw [hqueue, this] at hi
      exact hi rfl
  | buffer => exact ⟨⟨rfl, rfl⟩, hr⟩
  | @admission thread id rest _ _ _ _ _ hout => exact ⟨(hsession thread).append hout.unreported, hr⟩
  | @admitCompleted thread id m success message rest _ _ _ _ _ hout =>
    refine ⟨(hsession thread).append (.append ?_ hout.unreported), hcompleted id success⟩
    exact unreported_ending hsteered
  | complete => exact ⟨unreported_ending hsteered, hcompleted _ _⟩
  | @accepted number r' turn _ hs _ _ =>
    refine ⟨⟨rfl, rfl⟩, fun h => ?_⟩
    rcases List.mem_append.1 h with h | h
    · rcases List.mem_insert_iff.1 h with h | h
      · exact hother hs h.symm
      · exact hsteered h
    · exact hsettle number (List.mem_append.2 (.inr h))
  | @late number r' turn _ hs _ _ =>
    refine ⟨?_, hsettle number⟩
    split
    · exact ⟨by simp [Action.consumes, hother hs], rfl⟩
    · exact ⟨rfl, rfl⟩
  | @rejected number r' turn message _ _ hs =>
    exact ⟨⟨rfl, by simp [Action.rejects, hother hs]⟩, hsettle number⟩

/-! ## A hand-off that is not settled -/

theorem mem_settle {number n : ℕ} (h : (n, r, turn) ∈ c.steering) (hne : n ≠ number) :
    (n, r, turn) ∈ (c.settle number).steering :=
  List.mem_filter.2 ⟨h, by simpa using hne⟩

theorem unended_ending {success : Bool} {message : Option String} :
    (c.ending success message).findSome? Action.failure? = some !success := by
  rw [ending]
  split <;> rfl

/-- The answer is still out after a step that reports nothing of the input. -/
theorem Stage.keep_waiting {number : ℕ} (hs : (number, r, turn) ∈ c'.steering)
    (h₁ : consumed r log = 0) (h₂ : rejections r log = 0)
    (h₃ : ended log = if c.phase = .running then none else some (some turn, !c.completedSuccess))
    (hr : Unreported r out) (hend : out.findSome? Action.failure? = none)
    (hphase : c'.phase = c.phase) (hsuccess : c'.completedSuccess = c.completedSuccess) :
    Stage c' r turn (log ++ [(i, out)]) := by
  refine .waiting hs ?_ ?_ ?_
  · rw [consumed_concat, h₁, hr.1]
  · rw [rejections_concat, h₂, hr.2]
  · rw [ended_quiet hend, h₃, hphase, hsuccess]

theorem Turns.Moves.waiting (hs : c.Sound) (hm : Moves c i out c') {number : ℕ}
    (hwait : (number, r, turn) ∈ c.steering) (h₁ : consumed r log = 0) (h₂ : rejections r log = 0)
    (h₃ : ended log = if c.phase = .running then none else some (some turn, !c.completedSuccess)) :
    Stage c' r turn (log ++ [(i, out)]) := by
  have hphase : c.phase = .running ∨ c.phase = .ready :=
    (hs.steering _ hwait).imp (·.1) (·.1)
  have hsteered : r ∉ c.steered := fun h => hs.own hwait (List.mem_append.2 (.inl h))
  -- the answer to another hand-off is about another input
  have hother : ∀ {n r' turn'}, (n, r', turn') ∈ c.steering → number ≠ n →
      (number, r, turn) ∈ (c.settle n).steering ∧ r' ≠ r := by
    intro n r' turn' hn hne
    have hmem := mem_settle hwait hne
    refine ⟨hmem, ?_⟩
    rintro rfl
    exact hs.own hn (mem_outstanding_of_steering hmem)
  have hsame : ∀ {r' turn'}, (number, r', turn') ∈ c.steering → r' = r ∧ turn' = turn := by
    intro r' turn' hn
    have := List.inj_on_of_nodup_map hs.numbers hn hwait rfl
    exact Prod.mk.inj (Prod.mk.inj this).2
  cases hm with
  | rest _ _ hout => exact .keep_waiting hwait h₁ h₂ h₃ hout.unreported hout.unended rfl rfl
  | prepare _ hp => rcases hphase with h | h <;> simp [h] at hp
  | «open» _ hp => rcases hphase with h | h <;> simp [h] at hp
  | openStart _ hp => rcases hphase with h | h <;> simp [h] at hp
  | start _ _ hnil => simp [hnil] at hwait
  | steer _ _ _ _ _ _ hout =>
    exact .keep_waiting (List.mem_append.2 (.inl hwait)) h₁ h₂ h₃ hout.unreported hout.unended rfl rfl
  | buffer _ _ _ hp => rcases hphase with h | h <;> simp [h] at hp
  | admission _ _ _ hp => rcases hphase with h | h <;> simp [h] at hp
  | admitCompleted _ _ _ hp => rcases hphase with h | h <;> simp [h] at hp
  | @complete thread id success message hi _ hturn =>
    have hrun : c.phase = .running := hs.turn.1 (by simp [hturn])
    have hid : turn = id := by
      rcases hs.steering _ hwait with ⟨_, ht⟩ | ⟨hp, _⟩
      · exact Option.some.inj (ht.symm.trans hturn)
      · simp [hrun] at hp
    have hr : Unreported r (c.ending success message) := unreported_ending hsteered
    refine .waiting hwait ?_ ?_ ?_
    · rw [consumed_concat, h₁, hr.1]
    · rw [rejections_concat, h₂, hr.2]
    · rw [ended_concat, h₃, if_pos hrun, unended_ending, hi, hid]
      rfl
  | @accepted n r' turn' _ hn hturn hrun =>
    by_cases hne : number = n
    · subst hne
      obtain ⟨rfl, rfl⟩ := hsame hn
      refine .accepted (List.mem_insert_self ..) hturn ?_ ?_ ?_
      · rw [consumed_concat, h₁]
        rfl
      · rw [rejections_concat, h₂]
        rfl
      · rw [ended_quiet rfl, h₃, if_pos hrun]
    · exact .keep_waiting (hother hn hne).1 h₁ h₂ h₃ ⟨rfl, rfl⟩ rfl rfl rfl
  | @late n r' turn' _ hn hready _ =>
    rw [if_neg (by simp [hready])] at h₃
    by_cases hne : number = n
    · subst hne
      obtain ⟨rfl, rfl⟩ := hsame hn
      refine .closed (hs.own hn) ?_
      by_cases hsuccess : c.completedSuccess = true
      · rw [if_pos hsuccess]
        rw [hsuccess] at h₃
        refine .consumed ?_ ?_ ?_
        · rw [consumed_concat, h₁]
          simp [Action.consumes]
        · rw [rejections_concat, h₂]
          rfl
        · rw [ended_quiet rfl, h₃]
          rfl
      · rw [if_neg hsuccess]
        rw [Bool.not_eq_true] at hsuccess
        rw [hsuccess] at h₃
        refine .lost ?_ ?_ ?_
        · rw [consumed_concat, h₁]
          rfl
        · rw [rejections_concat, h₂]
          rfl
        · rw [ended_quiet rfl, h₃]
          rfl
    · obtain ⟨hmem, hrr⟩ := hother hn hne
      have hend : ended log = if c.phase = .running then none
          else some (some turn, !c.completedSuccess) := by
        rw [h₃, if_neg (by simp [hready])]
      refine .keep_waiting hmem h₁ h₂ hend ?_ ?_ rfl rfl
      · split
        · exact ⟨by simp [Action.consumes, hrr], rfl⟩
        · exact ⟨rfl, rfl⟩
      · split <;> rfl
  | @rejected n r' turn' message _ hrefusal hn =>
    by_cases hne : number = n
    · subst hne
      obtain ⟨rfl, rfl⟩ := hsame hn
      refine .closed (hs.own hn) (.rejected ?_ ?_ ⟨_, List.mem_concat_self, hrefusal, ?_⟩)
      · rw [consumed_concat, h₁]
        rfl
      · rw [rejections_concat, h₂]
        simp [Action.rejects]
      · simp [Action.rejects]
    · obtain ⟨hmem, hrr⟩ := hother hn hne
      exact .keep_waiting hmem h₁ h₂ h₃ ⟨rfl, by simp [Action.rejects, hrr]⟩ rfl rfl rfl

theorem Turns.Moves.accepts (hs : c.Sound) (hm : Moves c i out c') (hin : r ∈ c.steered)
    (hturn : c.turn = some turn) (h₁ : consumed r log = 0) (h₂ : rejections r log = 0)
    (h₃ : ended log = none) : Stage c' r turn (log ++ [(i, out)]) := by
  have hrun : c.phase = .running := hs.turn.1 (by simp [hturn])
  have hout := hs.inputs
  rw [outstanding, List.nodup_append] at hout
  obtain ⟨hnodup, _, hapart⟩ := hout
  have hother : ∀ {n r' turn'}, (n, r', turn') ∈ c.steering → r' ≠ r := fun hn h =>
    hapart r hin _ (List.mem_map.2 ⟨_, hn, rfl⟩) h.symm
  have hkeep : ∀ {d : Turns} {o : List Action}, r ∈ d.steered → d.turn = some turn →
      Unreported r o → o.findSome? Action.failure? = none → Stage d r turn (log ++ [(i, o)]) := by
    intro d o hd ht hr hend
    refine .accepted hd ht ?_ ?_ ?_
    · rw [consumed_concat, h₁, hr.1]
    · rw [rejections_concat, h₂, hr.2]
    · rw [ended_quiet hend, h₃]
  cases hm with
  | rest _ _ hout => exact hkeep hin hturn hout.unreported hout.unended
  | prepare _ hp => simp [hrun] at hp
  | «open» _ hp => simp [hrun] at hp
  | openStart _ hp => simp [hrun] at hp
  | start _ hp => simp [hrun] at hp
  | steer _ _ _ _ _ _ hout => exact hkeep hin hturn hout.unreported hout.unended
  | buffer _ _ _ hp => simp [hrun] at hp
  | admission _ _ _ hp => simp [hrun] at hp
  | admitCompleted _ _ _ hp => simp [hrun] at hp
  | @complete thread id success message hi _ hturn' =>
    obtain rfl : turn = id := Option.some.inj (hturn.symm.trans hturn')
    have hgone : r ∉ (c.completed turn success).outstanding := fun h => by
      obtain ⟨s, hs, hsr⟩ := List.mem_map.1 h
      exact hother hs hsr
    have hend : ended (log ++ [(i, c.ending success message)]) = some (some turn, !success) := by
      rw [ended_concat, h₃, unended_ending, hi]
      rfl
    refine .closed hgone ?_
    cases success with
    | true =>
      have hne : c.steered ≠ [] := List.ne_nil_of_mem hin
      refine .consumed ?_ ?_ hend
      · rw [consumed_concat, h₁, ending, if_pos ⟨rfl, hne⟩]
        simpa [Action.consumes] using List.count_eq_one_of_mem hnodup hin
      · rw [rejections_concat, h₂, ending, if_pos ⟨rfl, hne⟩]
        rfl
    | false =>
      refine .lost ?_ ?_ hend
      · rw [consumed_concat, h₁]
        rfl
      · rw [rejections_concat, h₂]
        rfl
  | accepted => exact hkeep (List.mem_insert_of_mem hin) hturn ⟨rfl, rfl⟩ rfl
  | late _ _ hp => simp [hrun] at hp
  | rejected _ _ hn => exact hkeep hin hturn ⟨rfl, by simp [Action.rejects, hother hn]⟩ rfl

theorem Stage.next (hs : c.Sound) (h : Stage c r turn log) (hm : Moves c i out c')
    (hi : handOff i ≠ some r) : Stage c' r turn (log ++ [(i, out)]) := by
  cases h with
  | waiting hwait h₁ h₂ h₃ => exact hm.waiting hs hwait h₁ h₂ h₃
  | accepted hin hturn h₁ h₂ h₃ => exact hm.accepts hs hin hturn h₁ h₂ h₃
  | closed hr ho =>
    obtain ⟨hquiet, hr'⟩ := hm.unreported hr hi
    exact .closed hr' (ho.concat hquiet)

/-! ## Every hand-off of a run -/

/-- The stage of each hand-off, from its entry to the next one of its input. -/
def HandedOff (c : Turns) (log : Log) : Prop :=
  ∀ before r prompt uuid out after, log = before ++ (.queue r prompt uuid, out) :: after →
    (∀ e ∈ after, handOff e.1 ≠ some r) →
    ∃ turn, steeredInto out = some turn ∧ Stage c r turn after

theorem Turns.Moves.hands_off {prompt uuid : String}
    (hm : Moves c (.queue r prompt uuid) out c') :
    ∃ turn, steeredInto out = some turn ∧ Stage c' r turn [] := by
  have hplain : ¬Plain (.queue r prompt uuid) := fun h => by simp [Plain, handOff] at h
  cases hm with
  | @steer out r' prompt' uuid' number turn hi hrun _ _ _ _ _ hinto =>
    obtain ⟨rfl, _, _⟩ := Input.queue.inj hi
    refine ⟨turn, hinto, .waiting (List.mem_append.2 (.inr (List.mem_singleton_self _))) rfl rfl ?_⟩
    rw [if_pos hrun]
    rfl
  | rest _ h => cases h
  | buffer h => cases h
  | complete h => cases h
  | _ => contradiction

theorem HandedOff.next (hs : c.Sound) (h : HandedOff c log) (hm : Moves c i out c') :
    HandedOff c' (log ++ [(i, out)]) := by
  intro before r prompt uuid out' after hlog hlater
  rcases Machine.entry_cases hlog with ⟨_, he, rfl⟩ | ⟨rest, rfl, hbefore⟩
  · obtain ⟨rfl, rfl⟩ := Prod.mk.inj he
    exact hm.hands_off
  · obtain ⟨turn, hinto, hstage⟩ := h before r prompt uuid out' rest hbefore
      fun e he => hlater e (List.mem_append.2 (.inl he))
    exact ⟨turn, hinto, hstage.next hs hm (hlater _ List.mem_concat_self)⟩

theorem handedOff_nil : HandedOff c [] := by
  intro before r prompt uuid out after h
  cases before <;> cases h

/-- What a stage tells: an outcome, or nothing yet of an input that is outstanding. -/
theorem Stage.tells (h : Stage c r turn log) :
    Outcome r turn log ∨ consumed r log = 0 ∧ rejections r log = 0 ∧ r ∈ c.outstanding := by
  cases h with
  | waiting hwait h₁ h₂ _ => exact .inr ⟨h₁, h₂, mem_outstanding_of_steering hwait⟩
  | accepted hin _ h₁ h₂ _ => exact .inr ⟨h₁, h₂, mem_outstanding_of_steered hin⟩
  | closed _ ho => exact .inl ho

/-- No turn starts while an answer to a hand-off is out. -/
theorem Turns.Moves.starts_none (hs : c.Sound) (hm : Moves c i out c') (hwait : c.steering ≠ []) :
    out.any Action.startsTurn = false := by
  obtain ⟨s, hmem⟩ := List.exists_mem_of_ne_nil _ hwait
  have hphase : c.phase = .running ∨ c.phase = .ready := (hs.steering s hmem).imp (·.1) (·.1)
  cases hm with
  | rest _ _ hout => exact hout.starts
  | prepare _ _ _ hout => exact hout.starts
  | «open» _ _ hout => exact hout.starts
  | openStart _ hp => rcases hphase with h | h <;> simp [h] at hp
  | start _ _ hnil => exact absurd hnil hwait
  | steer _ _ _ _ _ _ hout => exact hout.starts
  | buffer => rfl
  | admission _ _ _ hp => rcases hphase with h | h <;> simp [h] at hp
  | admitCompleted _ _ _ hp => rcases hphase with h | h <;> simp [h] at hp
  | complete => exact (ending_counts _ _).1
  | accepted => rfl
  | late => split <;> rfl
  | rejected => rfl

variable {a : Traex}

theorem steering_ne_nil (h : ∃ p ∈ a.pending, p.2.queuedInput.isSome = true) :
    a.turns.steering ≠ [] := by
  obtain ⟨p, hp, hq⟩ := h
  obtain ⟨q, hq⟩ := Option.isSome_iff_exists.1 hq
  exact List.ne_nil_of_mem (mem_steering.2 ⟨p, hp, rfl, hq⟩ : (p.1, q) ∈ steering a.pending)

theorem run_handedOff {instructions uuid cwd : String} {session : Session} {config : LaunchConfig}
    (hcreate : create instructions uuid cwd session config = .ok a) {inputs : List Input}
    (hserved : Machine.Served advance Input.lenient serves a inputs) :
    Machine.Reached (fun a log => (a.turns.Sound ∧ a.Wires) ∧ HandedOff a.turns log)
      (Machine.run advance Input.lenient a inputs) := by
  obtain ⟨hs, hw, _⟩ := created_followed hcreate
  refine Machine.run_keeps ⟨⟨hs, hw⟩, handedOff_nil⟩ ?_ ?_ hserved
  · rintro a log i out t ⟨⟨hs, hw⟩, hlog⟩ hserves hrun
    obtain ⟨hm, hw'⟩ := (wp_run (advance_spec hs hw hserves) hrun).1 out rfl
    exact ⟨⟨hm.sound hs, hw'⟩, hlog.next hs hm⟩
  · rintro a log i e t hl ⟨⟨hs, hw⟩, hlog⟩ hserves hrun
    obtain ⟨ht, hw'⟩ := (wp_run (advance_spec hs hw hserves) hrun).2 e rfl hl
    rw [← ht] at hs hlog
    exact ⟨⟨hs, hw'⟩, hlog⟩

/-- Each hand-off is settled in one way: the input is reported consumed once, by the successful end
of its turn; it is reported rejected once, by the answer; or it is never reported, and its turn
failed or the adapter did. -/
theorem steering_outcome (instructions uuid cwd : String) (session : Session) (config : LaunchConfig)
    (a : Traex) (hcreate : create instructions uuid cwd session config = .ok a) (inputs : List Input)
    (hserved : Machine.Served advance Input.lenient serves a inputs) :
    let life := Machine.run advance Input.lenient a inputs
    (∀ before r prompt uuid out after, life.log = before ++ (.queue r prompt uuid, out) :: after →
      (∀ e ∈ after, handOff e.1 ≠ some r) →
      ∃ turn, steeredInto out = some turn ∧
        (Outcome r turn after ∨ consumed r after = 0 ∧ rejections r after = 0 ∧
          (life.ended = true ∨ r ∈ life.state.outstanding))) ∧
    (life.ended = false →
      let a := life.state
      a.outstanding.length ≤ 16 ∧ a.outstanding.Nodup ∧
      ((∃ p ∈ a.pending, p.2.queuedInput.isSome = true) →
        a.canStartTurn = false ∧ ∀ i out a', a.serves i = true →
          (advance i).run a = (.ok out, a') → out.any Action.startsTurn = false)) := by
  intro life
  obtain ⟨s, ⟨⟨hs, hw⟩, hlog⟩, hlive⟩ := run_handedOff hcreate hserved
  refine ⟨?_, fun hend => ?_⟩
  · intro before r prompt uuid out after hsplit hlater
    obtain ⟨turn, hinto, hstage⟩ := hlog before r prompt uuid out after hsplit hlater
    refine ⟨turn, hinto, hstage.tells.imp id fun ⟨h₁, h₂, hmem⟩ => ⟨h₁, h₂, ?_⟩⟩
    cases hend : life.ended with
    | true => exact .inl rfl
    | false =>
      rw [outstanding_turns] at hmem
      rw [hlive hend]
      exact .inr hmem
  · obtain rfl : life.state = s := hlive hend
    have hroom := hs.room
    have hnodup := hs.inputs
    rw [outstanding_turns] at hroom hnodup
    refine ⟨hroom, hnodup, fun hpending => ⟨?_, fun i out a' hserves hrun => ?_⟩⟩
    · obtain ⟨p, hp, _⟩ := hpending
      have hne : life.state.pending.isEmpty = false := by
        rw [List.isEmpty_eq_false_iff]
        exact List.ne_nil_of_mem hp
      rw [canStartTurn, hne, Bool.and_false]
    · obtain ⟨hm, _⟩ := (wp_run (advance_spec hs hw hserves) hrun).1 out rfl
      exact hm.starts_none hs (steering_ne_nil hpending)

/-- An input is handed over, accepted, and consumed by the end of its turn. -/
def steeredOnce : List Input :=
  opened ++ [.start "hello", answer 4 (started "turn"), .queue "r" "more" "uuid",
    answer 5 (.obj [("turnId", .str "turn")]), completion "t" "turn" "completed"]

theorem steering_outcome_steered :
    let life := Machine.run advance Input.lenient created steeredOnce
    consumed "r" life.log = 1 ∧ rejections "r" life.log = 0 ∧ life.state.outstanding.length ≤ 16 :=
  ⟨by decide +kernel, by decide +kernel,
    ((steering_outcome "" "" "/tmp" default {} created rfl steeredOnce (by decide +kernel)).2
      (by decide +kernel)).1⟩

end Traex

end LatteWork
