import LatteWork.Proofs.TraexMoves

/-!
# A Traex turn completes once

In whatever order the answer to `turn/start`, the notification of the turn and completions of any
thread and turn arrive, an admitted turn is running exactly until a completion of it is there, and
each admission is paid by one end of a turn (`turns_complete`).
-/

namespace LatteWork

namespace Traex

open Prog Turns

/-- What an adapter took, with its answers. -/
abbrev Log := List (Input × List Action)

/-- The turns admitted on the way: each is told with the native session. -/
def admitted (log : Log) : ℕ := (log.flatMap (·.2)).countP Action.isNativeSession

def finished (log : Log) : ℕ := (log.flatMap (·.2)).countP Action.isFinished

/-- The completions received since a turn was last started. -/
def received : Log → List (Option String × Option String) :=
  List.foldl (fun seen e =>
    (if e.2.any Action.startsTurn then [] else seen) ++ (completionOf e.1).toList) []

theorem received_concat (log : Log) (i : Input) (out : List Action) :
    received (log ++ [(i, out)]) =
      (if out.any Action.startsTurn then [] else received log) ++ (completionOf i).toList := by
  simp [received]

theorem admitted_concat (log : Log) (i : Input) (out : List Action) :
    admitted (log ++ [(i, out)]) = admitted log + out.countP Action.isNativeSession := by
  simp [admitted]

theorem finished_concat (log : Log) (i : Input) (out : List Action) :
    finished (log ++ [(i, out)]) = finished log + out.countP Action.isFinished := by
  simp [finished]

namespace Turns

/-- What the log tells of the turns. -/
structure Tracked (c : Turns) (log : Log) : Prop where
  balance : admitted log = finished log + if c.turn.isSome then 1 else 0
  awaited : ∀ thread id, c.thread = some thread → c.turn = some id →
    (some thread, some id) ∉ received log
  buffered : c.phase = .starting → ∀ thread id, c.thread = some thread →
    ((some thread, some id) ∈ received log ↔ ∃ m, (id, m) ∈ c.early)

variable {c c' : Turns} {i : Input} {out : List Action} {log : Log}

theorem startsTurn_of_remark {x : Action} (h : x.remark = true) : x.startsTurn = false := by
  cases x <;> simp_all [Action.remark, Action.startsTurn]

theorem Remarks.starts (h : Remarks out) : out.any Action.startsTurn = false := by
  rw [List.any_eq_false]
  intro x hx
  simp [startsTurn_of_remark (h x hx)]

theorem Remarks.sessions (h : Remarks out) : out.countP Action.isNativeSession = 0 := by
  rw [List.countP_eq_zero]
  intro x hx
  have := h x hx
  cases x <;> simp_all [Action.remark, Action.isNativeSession]

theorem Remarks.ends (h : Remarks out) : out.countP Action.isFinished = 0 := by
  rw [List.countP_eq_zero]
  intro x hx
  have := h x hx
  cases x <;> simp_all [Action.remark, Action.isFinished]

/-- The end of a turn is told once. -/
theorem ending_counts (success : Bool) (message : Option String) :
    (c.ending success message).any Action.startsTurn = false ∧
      (c.ending success message).countP Action.isNativeSession = 0 ∧
      (c.ending success message).countP Action.isFinished = 1 := by
  rw [ending]
  split <;> exact ⟨rfl, rfl, rfl⟩

/-- The balance after a step. -/
theorem Tracked.step (h : c.Tracked log)
    (hb : out.countP Action.isNativeSession + (if c.turn.isSome then 1 else 0) =
      out.countP Action.isFinished + if c'.turn.isSome then 1 else 0)
    (hawaited : ∀ thread id, c'.thread = some thread → c'.turn = some id →
      (some thread, some id) ∉ received (log ++ [(i, out)]))
    (hbuffered : c'.phase = .starting → ∀ thread id, c'.thread = some thread →
      ((some thread, some id) ∈ received (log ++ [(i, out)]) ↔ ∃ m, (id, m) ∈ c'.early)) :
    c'.Tracked (log ++ [(i, out)]) where
  balance := by
    have := h.balance
    rw [admitted_concat, finished_concat]
    omega
  awaited := hawaited
  buffered := hbuffered

/-- A step that is no completion and starts no turn receives nothing. -/
theorem received_quiet (hi : completionOf i = none) (hout : out.any Action.startsTurn = false) :
    received (log ++ [(i, out)]) = received log := by
  rw [received_concat, hi, hout]
  simp

theorem Moves.tracked (hs : c.Sound) (h : c.Tracked log) (hm : Moves c i out c') :
    c'.Tracked (log ++ [(i, out)]) := by
  have hturn : c.phase ≠ .running → c.turn = none := fun hp => by
    rcases ht : c.turn with _ | t
    · rfl
    · exact absurd (hs.turn.1 (by simp [ht])) hp
  cases hm with
  | rest hignores _ hout =>
    refine h.step (by rw [hout.sessions, hout.ends]) (fun thread id ht hid => ?_) fun hp thread id ht => ?_
    all_goals rw [received_concat, hout.starts, if_neg Bool.false_ne_true, List.mem_append, Option.mem_toList]
    · rw [not_or]
      exact ⟨h.awaited thread id ht hid, fun hc => (hignores thread id hc ht).1 hid⟩
    · rw [← h.buffered hp thread id ht]
      exact or_iff_left fun hc => (hignores thread id hc ht).2 hp
  | @prepare out phase hi hp hp' hout =>
    have hnone : c.turn = none := hturn (by rintro hr; simp [hr] at hp)
    refine h.step (by rw [hout.sessions, hout.ends]) (fun _ _ _ hid => ?_) fun hst => ?_
    · exact absurd (hnone.symm.trans hid) (by simp)
    · obtain rfl : phase = .starting := hst
      simp at hp'
  | «open» hi hp hout =>
    have hnone : c.turn = none := hturn (by simp [hp])
    refine h.step (by rw [hout.sessions, hout.ends]) (fun _ _ _ hid => ?_) fun hst => by simp at hst
    exact absurd (hnone.symm.trans hid) (by simp)
  | @openStart out thread frame hi hp hout hframe =>
    have hnone : c.turn = none := hturn (by simp [hp])
    have hf : frame.isNativeSession = false ∧ frame.isFinished = false := by
      cases frame <;> simp_all [Action.startsTurn, Action.isNativeSession, Action.isFinished]
    refine h.step ?_ (fun _ _ _ hid => absurd (hnone.symm.trans hid) (by simp)) fun _ thread id _ => ?_
    · simp [hout.sessions, hout.ends, hf.1, hf.2]
    · rw [received_concat, hi.1, if_pos (by simp [hframe])]
      simp
  | @start frame hi hp _ hframe =>
    have hnone : c.turn = none := hturn (by simp [hp])
    have hf : frame.isNativeSession = false ∧ frame.isFinished = false := by
      cases frame <;> simp_all [Action.startsTurn, Action.isNativeSession, Action.isFinished]
    refine h.step ?_ (fun _ _ _ hid => absurd (hnone.symm.trans hid) (by simp)) fun _ thread id _ => ?_
    · simp [hf.1, hf.2]
    · rw [received_concat, hi.1, if_pos (by simp [hframe])]
      simp
  | steer hi _ _ _ _ _ hout =>
    have hr : received (log ++ [(i, out)]) = received log :=
      received_quiet (by rw [hi]; rfl) hout.starts
    refine h.step (by rw [hout.sessions, hout.ends]) ?_ ?_
    · rw [hr]
      exact h.awaited
    · rw [hr]
      exact h.buffered
  | @buffer m thread id _ hc ht hp =>
    have hnone : c.turn = none := hturn (by simp [hp])
    refine h.step rfl (fun _ _ _ hid => absurd (hnone.symm.trans hid) (by simp)) fun _ thread' id' ht' => ?_
    obtain rfl : thread = thread' := Option.some.inj (ht.symm.trans ht')
    rw [received_concat, hc, if_neg (by simp), List.mem_append, h.buffered hp thread id' ht]
    simp only [Option.toList_some, List.mem_singleton, Prod.mk.injEq, Option.some.injEq, true_and,
      Assoc.mem_put]
    constructor
    · rintro (⟨v, hv⟩ | rfl)
      · by_cases hid : id' = id
        · exact ⟨m, .inr ⟨hid, rfl⟩⟩
        · exact ⟨v, .inl ⟨hv, hid⟩⟩
      · exact ⟨m, .inr ⟨rfl, rfl⟩⟩
    · rintro ⟨v, ⟨hv, _⟩ | ⟨hid, _⟩⟩
      · exact .inl ⟨v, hv⟩
      · exact .inr hid
  | @admission thread id rest hi _ ht hp hlook hout =>
    have hnone : c.turn = none := hturn (by simp [hp])
    have hstarts : (Action.nativeSession thread :: rest).any Action.startsTurn = false := by
      rw [List.any_cons, hout.starts]
      rfl
    refine h.step ?_ (fun thread' id' ht' hid => ?_) fun hst => by simp at hst
    · rw [List.countP_cons, List.countP_cons, hout.sessions, hout.ends, hnone]
      rfl
    · rw [received_quiet hi.1 hstarts, h.buffered hp thread' id' ht']
      rintro ⟨m, hm⟩
      obtain rfl : id = id' := Option.some.inj hid
      rw [(Assoc.lookup_eq_some hs.earlyKeys).2 hm] at hlook
      cases hlook
  | @admitCompleted thread id m success message rest hi _ ht hp hlook hout =>
    have hnone : c.turn = none := hturn (by simp [hp])
    obtain ⟨_, hsessions, hends⟩ := ending_counts (c := c) success message
    refine h.step ?_ (fun _ _ _ hid => by simp [Turns.completed] at hid) fun hst => by
      simp [Turns.completed] at hst
    rw [List.countP_cons, List.countP_cons, List.countP_append, List.countP_append, hsessions, hends,
      hout.sessions, hout.ends, hnone]
    rfl
  | @complete thread id success message _ _ ht =>
    obtain ⟨_, hsessions, hends⟩ := ending_counts (c := c) success message
    refine h.step ?_ (fun _ _ _ hid => by simp [Turns.completed] at hid) fun hst => by
      simp [Turns.completed] at hst
    rw [hsessions, hends, ht]
    rfl
  | accepted hi _ _ _ =>
    have hr : received (log ++ [(i, [])]) = received log := received_quiet hi.1 rfl
    refine h.step rfl ?_ ?_
    · rw [hr]
      exact h.awaited
    · rw [hr]
      exact h.buffered
  | @late number r turn hi _ _ _ =>
    have hout : (if c.completedSuccess then [Action.inputsConsumed [r]] else []).any
        Action.startsTurn = false := by split <;> rfl
    have hr : received (log ++ [(i, if c.completedSuccess then [.inputsConsumed [r]] else [])]) =
        received log := received_quiet hi.1 hout
    refine h.step (by split <;> rfl) ?_ ?_
    · rw [hr]
      exact h.awaited
    · rw [hr]
      exact h.buffered
  | @rejected number r turn message hi _ =>
    have hr : received (log ++ [(i, [.inputRejected r message])]) = received log :=
      received_quiet hi.1 rfl
    refine h.step rfl ?_ ?_
    · rw [hr]
      exact h.awaited
    · rw [hr]
      exact h.buffered

/-- Where the end of a turn comes from: the completion itself, or the admission of the turn it was
waiting for. -/
theorem Moves.finishes (hs : c.Sound) (h : c.Tracked log) (hm : Moves c i out c')
    (hf : out.any Action.isFinished = true) :
    ∃ thread id, c.thread = some thread ∧ c'.completedTurn = some id ∧ c'.turn = none ∧
      out.countP Action.isFinished = 1 ∧
      (completionOf i = some (some thread, some id) ∧ c.turn = some id ∨
        admissionOf i = some id ∧ c.turn = none ∧ (some thread, some id) ∈ received log) := by
  have hquiet : ∀ {l : List Action}, l.countP Action.isFinished = 0 →
      l.any Action.isFinished = true → False := by
    intro l h₀ h₁
    obtain ⟨x, hx, hfx⟩ := List.any_eq_true.1 h₁
    exact absurd hfx (List.countP_eq_zero.1 h₀ x hx)
  cases hm with
  | rest _ _ hout => exact (hquiet hout.ends hf).elim
  | prepare _ _ _ hout => exact (hquiet hout.ends hf).elim
  | «open» _ _ hout => exact (hquiet hout.ends hf).elim
  | @openStart out thread frame _ _ hout hframe =>
    have : frame.isFinished = false := by
      cases frame <;> simp_all [Action.startsTurn, Action.isFinished]
    exact (hquiet (by simp [hout.ends, this]) hf).elim
  | @start frame _ _ _ hframe =>
    have : frame.isFinished = false := by
      cases frame <;> simp_all [Action.startsTurn, Action.isFinished]
    exact (hquiet (by simp [this]) hf).elim
  | steer _ _ _ _ _ _ hout => exact (hquiet hout.ends hf).elim
  | buffer => simp at hf
  | @admission thread id rest _ _ _ _ _ hout =>
    refine (hquiet ?_ hf).elim
    rw [List.countP_cons, hout.ends]
    rfl
  | @admitCompleted thread id m success message rest hi hid ht hp hlook hout =>
    obtain ⟨_, _, hends⟩ := ending_counts (c := c) success message
    refine ⟨thread, id, ht, rfl, rfl, ?_, .inr ⟨hid, ?_, ?_⟩⟩
    · rw [List.countP_cons, List.countP_append, hends, hout.ends]
      rfl
    · by_contra hne
      have := hs.turn.1 (Option.ne_none_iff_isSome.1 hne)
      simp [hp] at this
    · exact (h.buffered hp thread id ht).2 ⟨m, (Assoc.lookup_eq_some hs.earlyKeys).1 hlook⟩
  | @complete thread id success message hi ht hid =>
    exact ⟨thread, id, ht, rfl, rfl, (ending_counts success message).2.2, .inl ⟨hi, hid⟩⟩
  | accepted => simp at hf
  | late => split at hf <;> simp [Action.isFinished] at hf
  | rejected => simp [Action.isFinished] at hf

/-- A completion admits no turn. -/
theorem Moves.admits_none (hm : Moves c i out c') (hi : completionOf i ≠ none) :
    out.any Action.isNativeSession = false ∧ (c'.turn = c.turn ∨ c'.turn = none) := by
  have hquiet : ∀ {l : List Action}, Remarks l → l.any Action.isNativeSession = false := by
    intro l hl
    rw [List.any_eq_false]
    intro x hx
    exact List.countP_eq_zero.1 hl.sessions x hx
  have hplain : ¬Plain i := fun h => hi h.1
  cases hm with
  | rest _ _ hout => exact ⟨hquiet hout, .inl rfl⟩
  | buffer => exact ⟨rfl, .inl rfl⟩
  | complete =>
    refine ⟨?_, .inr rfl⟩
    rw [ending]
    split <;> rfl
  | steer h => simp [h, completionOf] at hi
  | _ => contradiction

end Turns

variable {a a' : Traex} {i : Input} {out : List Action}

theorem completionOf_line {thread id : Option String} (hi : completionOf i = some (thread, id)) :
    ∃ m, i = .message (some m) ∧ isCompletion m ∧ (m.get? "id").isNone = true ∧
      thread = ((m.index "params").index "threadId").str? ∧
      id = (((m.index "params").index "turn").index "id").str? := by
  cases i with
  | message line =>
    rcases line with _ | m
    · cases hi
    · have hc : isCompletion m ∧ (m.get? "id").isNone = true := by
        by_contra hne
        rw [completionOf, if_neg hne] at hi
        cases hi
      rw [completionOf_message hc.2 hc.1] at hi
      obtain ⟨h₁, h₂⟩ := Prod.mk.inj (Option.some.inj hi)
      exact ⟨m, rfl, hc.1, hc.2, h₁.symm, h₂.symm⟩
  | _ => cases hi

/-- A completion of another thread or turn changes nothing, except that one of the own thread is
kept while a turn is started. -/
theorem ignored_completion (hs : a.turns.Sound) {thread id : Option String}
    (hi : completionOf i = some (thread, id))
    (hne : thread ≠ a.thread ∨ a.turn = none ∨ id ≠ a.turn) :
    wp (advance i)
      (fun out a' => out = [] ∧ (a' = a ∨ thread = a.thread ∧ a.phase = .starting ∧
        ∃ early, a' = { a with earlyCompletions := early }))
      (fun _ a' => thread = a.thread ∧ a.phase = .starting ∧ a' = a) a := by
  obtain ⟨m, rfl, hc, hid, hthread, hturn⟩ := completionOf_line hi
  have hname : (m.index "method").str?.getD "" = "turn/completed" := by
    rw [show (m.index "method").str? = some "turn/completed" from hc]
    rfl
  have hmethod : (m.get? "method").isSome = true := by
    rcases hget : m.get? "method" with _ | v
    · rw [isCompletion, Json.index, hget] at hc
      cases hc
    · rfl
  refine wp_bind.2 (wp_orError.2 ⟨?_, by simp⟩)
  rintro _ ⟨⟩
  rw [if_pos hmethod, if_neg (by simpa using hid)]
  refine wp_bind.2 (wp_current.2 (wp_ite.2 ⟨fun _ => ⟨rfl, .inl rfl⟩, fun hsame => ?_⟩))
  rw [not_not, ← hthread] at hsame
  rw [hname]
  refine wp_bind.2 (wp_current.2 (wp_ite.2 ⟨fun h => absurd h (by decide), fun _ =>
    wp_ite.2 ⟨fun h => absurd h.1 (by decide), fun _ => wp_ite.2 ⟨fun h => ?_, fun h => ?_⟩⟩⟩))
  · refine wp_bind.2 (wp_current.2 (wp_bind.2 (wp_lift.2 ⟨fun id _ => ?_, fun _ _ => ⟨hsame, h.2.1, rfl⟩⟩)))
    refine wp_bind.2 (wp_bailIf.2 ⟨fun _ => ⟨hsame, h.2.1, rfl⟩, fun _ => ?_⟩)
    exact ⟨rfl, .inr ⟨hsame, h.2.1, _, rfl⟩⟩
  · have hcond : (a.phase ≠ .running ∧ a.phase ≠ .starting) ∨
        (((m.index "params").index "turn").index "id").str? = none ∨
        (((m.index "params").index "turn").index "id").str? ≠ a.turn := by
      rw [← hturn]
      by_cases hphase : a.phase = .running
      · rcases hne with hne | hnone | hne
        · exact absurd hsame hne
        · exact absurd (hs.turn.2 hphase) (by simp [turns, hnone])
        · exact .inr (.inr hne)
      · have hnone : a.turn = none := by
          by_contra hsome
          exact hphase (hs.turn.1 (Option.ne_none_iff_isSome.1 hsome))
        exact .inl ⟨hphase, fun hst => h ⟨rfl, hst, hnone⟩⟩
    have hrun := afterAdmission_completion (a := a) hc
    rw [if_pos hcond] at hrun
    unfold wp
    change (afterAdmission m) a = _ at hrun
    rw [hrun]
    exact ⟨rfl, .inl rfl⟩

/-- What holds between the inputs of a served adapter. -/
def Followed (a : Traex) (log : Log) : Prop :=
  a.turns.Sound ∧ a.Wires ∧ a.turns.Tracked log

theorem created_followed {instructions uuid cwd : String} {session : Session} {config : LaunchConfig}
    (h : create instructions uuid cwd session config = .ok a) : a.Followed [] := by
  simp only [create, Fallible.bind_eq_ok, Fallible.pure_eq_ok] at h
  obtain ⟨_, _, rfl⟩ := h
  refine ⟨⟨by simp [turns], by simp [turns], by simp [turns], by simp [turns], by simp [turns],
    by simp [turns], by simp [turns, steering], by simp [turns, steering],
    by simp [turns, steering, Turns.outstanding], by simp [turns, steering, Turns.outstanding]⟩, ?_, ?_⟩
  · exact ⟨by simp, by simp, by simp, by simp, by simp, by simp⟩
  · exact ⟨rfl, by simp [turns], by simp [turns]⟩

theorem Followed.next {log : Log} (h : a.Followed log) (hserves : a.serves i = true)
    (hrun : (advance i).run a = (.ok out, a')) : a'.Followed (log ++ [(i, out)]) := by
  obtain ⟨hm, hw⟩ := (wp_run (advance_spec h.1 h.2.1 hserves) hrun).1 out rfl
  exact ⟨hm.sound h.1, hw, hm.tracked h.1 h.2.2⟩

theorem Followed.refused {log : Log} {e : String} (h : a.Followed log) (hserves : a.serves i = true)
    (hl : i.lenient = true) (hrun : (advance i).run a = (.error e, a')) : a'.Followed log := by
  obtain ⟨ht, hw⟩ := (wp_run (advance_spec h.1 h.2.1 hserves) hrun).2 e rfl hl
  exact ⟨by rw [ht]; exact h.1, hw, by rw [ht]; exact h.2.2⟩

theorem run_followed {instructions uuid cwd : String} {session : Session} {config : LaunchConfig}
    (hcreate : create instructions uuid cwd session config = .ok a) {inputs : List Input}
    (hserved : Machine.Served advance Input.lenient serves a inputs) :
    Machine.Reached Followed (Machine.run advance Input.lenient a inputs) :=
  Machine.run_keeps (created_followed hcreate) (fun _ _ _ _ _ h hi hrun => h.next hi hrun)
    (fun _ _ _ _ _ hl h hi hrun => h.refused hi hl hrun) hserved

/-- Each admitted turn is ended exactly once, by a completion of its own thread and turn. -/
theorem turns_complete (instructions uuid cwd : String) (session : Session) (config : LaunchConfig)
    (a : Traex) (hcreate : create instructions uuid cwd session config = .ok a) (inputs : List Input)
    (hserved : Machine.Served advance Input.lenient serves a inputs) :
    let life := Machine.run advance Input.lenient a inputs
    (finished life.log ≤ admitted life.log ∧ admitted life.log ≤ finished life.log + 1) ∧
    (life.ended = false →
      let a := life.state
      admitted life.log = finished life.log + (if a.turn.isSome then 1 else 0) ∧
      -- a turn that is running has no completion yet
      (∀ thread id, a.thread = some thread → a.turn = some id →
        (some thread, some id) ∉ received life.log) ∧
      -- an end of a turn comes from a completion of that turn
      (∀ i out a', a.serves i = true → (advance i).run a = (.ok out, a') →
        out.any Action.isFinished = true →
        ∃ thread id, a.thread = some thread ∧ a'.completedTurn = some id ∧ a'.turn = none ∧
          out.countP Action.isFinished = 1 ∧
          (completionOf i = some (some thread, some id) ∧ a.turn = some id ∨
            admissionOf i = some id ∧ a.turn = none ∧ (some thread, some id) ∈ received life.log)) ∧
      -- a completion admits nothing, and changes nothing unless it is of the running turn or waited for
      (∀ i thread id, completionOf i = some (thread, id) →
        (∀ out a', (advance i).run a = (.ok out, a') → out.any Action.isNativeSession = false ∧
          (a'.turn = a.turn ∨ a'.turn = none)) ∧
        (thread ≠ a.thread ∨ a.turn = none ∨ id ≠ a.turn →
          wp (advance i)
            (fun out a' => out = [] ∧ (a' = a ∨ thread = a.thread ∧ a.phase = .starting ∧
              ∃ early, a' = { a with earlyCompletions := early }))
            (fun _ a' => thread = a.thread ∧ a.phase = .starting ∧ a' = a) a))) := by
  intro life
  obtain ⟨s, ⟨hs, hw, htracked⟩, hlive⟩ := run_followed hcreate hserved
  have hbalance : admitted life.log = finished life.log + if s.turns.turn.isSome then 1 else 0 :=
    htracked.balance
  refine ⟨⟨?_, ?_⟩, fun hend => ?_⟩
  · omega
  · split at hbalance <;> omega
  obtain rfl : life.state = s := hlive hend
  refine ⟨hbalance, htracked.awaited, fun i out a' hserves hrun hf => ?_, fun i thread id hi => ⟨?_, ?_⟩⟩
  · obtain ⟨hm, _⟩ := (wp_run (advance_spec hs hw hserves) hrun).1 out rfl
    exact hm.finishes hs htracked hf
  · intro out a' hrun
    have hserves : life.state.serves i = true := by
      obtain ⟨m, rfl, _⟩ := completionOf_line hi
      rfl
    obtain ⟨hm, _⟩ := (wp_run (advance_spec hs hw hserves) hrun).1 out rfl
    exact hm.admits_none (by simp [hi])
  · exact ignored_completion hs hi

/-- An answer of the app server. -/
def answer (number : ℕ) (result : Json) : Input :=
  .message (some (.obj [("id", .str (frameId number)), ("result", result)]))

/-- The notification that a turn has completed. -/
def completion (thread id status : String) : Input :=
  .message (some (.obj [("method", .str "turn/completed"), ("params", .obj [("threadId", .str thread),
    ("turn", .obj [("id", .str id), ("status", .str status)])])]))

def started (id : String) : Json := .obj [("turn", .obj [("id", .str id)])]

/-- The handshake of a session without a provider, up to the open thread `t`. -/
def opened : List Input :=
  [.open, answer 1 (.obj []),
    answer 2 (.obj [("config", .obj [("model_provider", .str "native")])]),
    answer 3 (.obj [("thread", .obj [("id", .str "t")])])]

/-- The completion comes before the turn is known; those of another thread and turn come with it. -/
def early : List Input :=
  opened ++ [.start "hello", completion "other" "turn" "completed", completion "t" "stale" "failed",
    completion "t" "turn" "completed", answer 4 (started "turn")]

/-- A new adapter without instructions or a provider. -/
def created : Traex :=
  { cwd := "/tmp", config := some {} }

theorem turns_complete_early :
    let life := Machine.run advance Input.lenient created early
    finished life.log = 1 ∧ finished life.log ≤ admitted life.log ∧
      admitted life.log ≤ finished life.log + 1 :=
  ⟨by decide +kernel,
    (turns_complete "" "" "/tmp" default {} created rfl early (by decide +kernel)).1⟩

end Traex

end LatteWork
