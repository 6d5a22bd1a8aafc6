import LatteWork.Proofs.TraexTurns

/-!
# Every input is a move

Each function of the adapter, read once: what it may answer and what it does to the turns. Items,
questions and approvals leave the turns alone; requests only add an entry that is no hand-off.
-/

namespace LatteWork

namespace Traex

open Prog Assoc Turns

/-- Nothing that turns or requests depend on changed. -/
def Alike (a a' : Traex) : Prop :=
  a'.turns = a.turns ∧ a'.pending = a.pending ∧ a'.counter = a.counter

theorem Alike.refl (a : Traex) : Alike a a := ⟨rfl, rfl, rfl⟩

theorem Alike.trans {a b c : Traex} (h : Alike a b) (h' : Alike b c) : Alike a c :=
  ⟨h'.1.trans h.1, h'.2.1.trans h.2.1, h'.2.2.trans h.2.2⟩

theorem remarks_nil : Remarks [] := by
  intro x hx
  exact absurd hx List.not_mem_nil

theorem remarks_cons {x : Action} {out : List Action} :
    Remarks (x :: out) ↔ x.remark = true ∧ Remarks out := by
  simp [Remarks]

theorem remarks_append {out more : List Action} :
    Remarks (out ++ more) ↔ Remarks out ∧ Remarks more := by
  simp only [Remarks, List.mem_append]
  exact ⟨fun h => ⟨fun x hx => h x (.inl hx), fun x hx => h x (.inr hx)⟩,
    fun h x hx => hx.elim (h.1 x) (h.2 x)⟩

@[simp]
theorem remark_event (e : AgentEvent) : (Action.event e).remark = true := rfl

/-! ## Items -/

/-- A program that leaves the turns and the requests alone. -/
abbrev Idle {β : Type} (m : Step β) (Q : β → Prop) : Prop :=
  Leaves (fun a => (a.turns, a.pending, a.counter)) m Q

theorem Idle.alike {β : Type} {m : Step β} {Q : β → Prop} (h : Idle m Q) (a : Traex) :
    wp m (fun b a' => Q b ∧ Alike a a') (fun _ _ => True) a := by
  refine wp_mono (h a) (fun b a' ⟨hb, ha⟩ => ⟨hb, ?_⟩) fun _ _ _ => trivial
  obtain ⟨h₁, h₂⟩ := Prod.mk.inj ha
  exact ⟨h₁, Prod.mk.inj h₂⟩

theorem addChild_idle (child : String) : Idle (addChild child) fun _ => True :=
  .bind .current fun _ _ => .bind .bailIf fun _ _ => .update fun _ => rfl

theorem trackChildren_idle (x : Json) : Idle (trackChildren x) fun _ => True := by
  refine .bind (.forEach (fun _ => .bind .orError fun _ _ => addChild_idle _) _) fun _ _ => ?_
  refine .forEach (fun p => ?_) _
  exact .ite (.update fun _ => rfl) (addChild_idle _)

theorem agentMessage_idle (x : Json) (id : String) (completed : Bool) :
    Idle (agentMessage x id completed) Remarks := by
  refine .bind .current fun _ _ => .ite ?_ (.pure remarks_nil)
  refine .bind .orError fun _ _ => .bind .bailIf fun _ _ => .bind (.update fun _ => rfl) ?_
  intro _ _
  exact .pure (remarks_cons.2 ⟨rfl, remarks_nil⟩)

theorem toolStarted_idle (x : Json) (kind id name : String) :
    Idle (toolStarted x kind id name) Remarks := by
  refine .bind .current fun _ _ => .ite ?_ (.pure remarks_nil)
  refine .bind .bailIf fun _ _ => .bind (.update fun _ => rfl) fun _ _ => ?_
  exact .pure (remarks_cons.2 ⟨rfl, remarks_nil⟩)

theorem backgrounded_idle (x : Json) (id : String) : Idle (backgrounded x id) Remarks := by
  refine .bind .current fun _ _ => .bind .bailIf fun _ _ => .bind .orError fun _ _ => ?_
  refine .bind (.update fun _ => rfl) fun _ _ => ?_
  exact .pure (remarks_cons.2 ⟨rfl, remarks_nil⟩)

theorem releaseCommand_idle (x : Json) (id : String) : Idle (releaseCommand x id) fun _ => True := by
  refine .ite (.bind (.update fun _ => rfl) fun _ _ => ?_) (.pure trivial)
  exact .when (.update fun _ => rfl)

theorem toolCompleted_idle (x : Json) (kind id : String) :
    Idle (toolCompleted x kind id) Remarks := by
  refine .ite (backgrounded_idle _ _) (.bind .bailIf fun _ _ => ?_)
  refine .bind (.when (releaseCommand_idle _ _)) fun _ _ => ?_
  exact .pure (remarks_cons.2 ⟨rfl, remarks_nil⟩)

theorem item_idle (x : Json) (completed : Bool) : Idle (item x completed) Remarks := by
  refine .bind .lift fun kind _ => .bind .lift fun id _ => ?_
  refine .ite (.pure (remarks_cons.2 ⟨rfl, remarks_nil⟩)) (.ite (agentMessage_idle _ _ _) ?_)
  refine .bind .lift fun name _ => ?_
  split
  · exact .pure remarks_nil
  · refine .bind (.when (trackChildren_idle _)) fun _ _ => ?_
    refine .bind (toolStarted_idle _ _ _ _) fun started hs => .ite ?_ (.pure hs)
    refine .bind (toolCompleted_idle _ _ _) fun ended he => ?_
    exact .pure (remarks_append.2 ⟨hs, he⟩)

theorem nativeRequest_idle (m : Json) : Idle (nativeRequest m) Remarks := by
  refine .bind .current fun a _ => .ite (.pure (remarks_cons.2 ⟨?_, remarks_nil⟩)) ?_
  · rfl
  split
  · refine .bind .bailIf fun _ _ => .bind (.update fun _ => rfl) fun _ _ => ?_
    exact .pure (remarks_cons.2 ⟨rfl, remarks_nil⟩)
  · refine .ite (.bind .lift fun _ _ => ?_) (.pure (remarks_cons.2 ⟨rfl, remarks_nil⟩))
    exact .pure (remarks_cons.2 ⟨rfl, remarks_nil⟩)

/-! ## Requests -/

def Method.handshake : Method → Bool
  | initializing | configRead | threadStart | threadResume => true
  | _ => false

/-- The table of pending requests: numbers are used once, a hand-off is a `turn/steer`, and at most
one request of the handshake is under way, in the phase that waits for it. -/
structure Wires (a : Traex) : Prop where
  keys : (a.pending.map (·.1)).Nodup
  below : ∀ p ∈ a.pending, p.1 ≤ a.counter
  steer : ∀ p ∈ a.pending, p.2.queuedInput.isSome ↔ p.2.method = .turnSteer
  single : (a.pending.filter (·.2.method.handshake)).length ≤ 1
  first : ∀ p ∈ a.pending, p.2.method = .initializing → a.phase = .initializing
  second : ∀ p ∈ a.pending, p.2.method.handshake = true → p.2.method ≠ .initializing →
    a.phase = .opening

/-- No request of the handshake is under way. -/
def Settled (a : Traex) : Prop := ∀ p ∈ a.pending, p.2.method.handshake = false

variable {a a' : Traex} {m : Method} {i : Input}

theorem Wires.settled (h : a.Wires) (h₁ : a.phase ≠ .initializing) (h₂ : a.phase ≠ .opening) :
    a.Settled := by
  intro p hp
  by_contra hne
  rw [Bool.not_eq_false] at hne
  by_cases hm : p.2.method = .initializing
  · exact h₁ (h.first p hp hm)
  · exact h₂ (h.second p hp hne hm)

theorem Wires.of_eq (h : a.Wires) (hp : a'.pending = a.pending) (hc : a'.counter = a.counter)
    (hphase : a'.phase = a.phase) : a'.Wires := by
  refine ⟨?_, ?_, ?_, ?_, ?_, ?_⟩ <;> simp only [hp, hc, hphase]
  · exact h.keys
  · exact h.below
  · exact h.steer
  · exact h.single
  · exact h.first
  · exact h.second

/-- The phase may change while no request of the handshake is under way. -/
theorem Wires.rephase (h : a.Wires) (hs : a.Settled) (hp : a'.pending = a.pending)
    (hc : a'.counter = a.counter) : a'.Wires := by
  refine ⟨?_, ?_, ?_, ?_, fun p hp' hm => ?_, fun p hp' hh => ?_⟩ <;> simp only [hp, hc] at *
  · exact h.keys
  · exact h.below
  · exact h.steer
  · exact h.single
  · have := hs p hp'
    rw [hm] at this
    cases this
  · rw [hs p hp'] at hh
    cases hh

theorem Alike.wires (h : Alike a a') (hw : a.Wires) : a'.Wires :=
  hw.of_eq h.2.1 h.2.2 (congrArg Turns.phase h.1)

/-- The adapter with one request more. -/
def requested (a : Traex) (m : Method) : Traex :=
  { a with
    counter := a.counter + 1
    pending := put (a.counter + 1)
      { method := m, interruptTurn := if m = .turnInterrupt then a.turn else none } a.pending }

theorem pending_requested (h : a.Wires) : (a.requested m).pending = a.pending ++
    [(a.counter + 1, { method := m, interruptTurn := if m = .turnInterrupt then a.turn else none })] := by
  rw [requested, put, drop_of_not_mem]
  intro p hp
  have := h.below p hp
  omega

theorem steering_append (l l' : List (ℕ × PendingRequest)) :
    steering (l ++ l') = steering l ++ steering l' := List.filterMap_append

theorem turns_requested (h : a.Wires) : (a.requested m).turns = a.turns := by
  have hs : steering (a.requested m).pending = steering a.pending := by
    rw [pending_requested h, steering_append]
    exact List.append_nil _
  simp only [turns, hs]
  rfl

theorem Wires.requested (h : a.Wires) (hm : m ≠ .turnSteer)
    (hh : m.handshake = true → a.Settled ∧ (m = .initializing → a.phase = .initializing) ∧
      (m ≠ .initializing → a.phase = .opening)) : (a.requested m).Wires := by
  have hp := pending_requested (m := m) h
  refine ⟨?_, ?_, ?_, ?_, ?_, ?_⟩ <;> rw [hp]
  · rw [List.map_append, List.nodup_append]
    refine ⟨h.keys, by simp, fun n hn k hk => ?_⟩
    obtain ⟨p, hp, rfl⟩ := List.mem_map.1 hn
    obtain rfl : k = a.counter + 1 := by simpa using hk
    have := h.below p hp
    omega
  · intro p hp
    show p.1 ≤ a.counter + 1
    rcases List.mem_append.1 hp with hp | hp
    · have := h.below p hp
      omega
    · exact Nat.le_of_eq (congrArg Prod.fst (List.mem_singleton.1 hp))
  · intro p hp
    rcases List.mem_append.1 hp with hp | hp
    · exact h.steer p hp
    · rw [List.mem_singleton.1 hp]
      simpa using hm
  · rw [List.filter_append, List.length_append]
    have := h.single
    by_cases hm : m.handshake = true
    · have hnil : a.pending.filter (·.2.method.handshake) = [] := by
        simpa [Settled] using (hh hm).1
      rw [hnil]
      simp [hm]
    · simpa [hm] using this
  · intro p hp hpm
    show a.phase = .initializing
    rcases List.mem_append.1 hp with hp | hp
    · exact h.first p hp hpm
    · rw [List.mem_singleton.1 hp] at hpm
      obtain rfl : m = .initializing := hpm
      exact (hh rfl).2.1 rfl
  · intro p hp hph hpm
    show a.phase = .opening
    rcases List.mem_append.1 hp with hp | hp
    · exact h.second p hp hph hpm
    · rw [List.mem_singleton.1 hp] at hph hpm
      exact (hh hph).2.2 hpm

/-- The frame of a request starts a turn exactly when its method does. -/
theorem startsTurn_request (number params : Json) :
    (Action.write (.obj [("id", number), ("method", .str m.asStr), ("params", params)])).startsTurn =
      decide (m = .turnStart) := by
  cases m <;> rfl

theorem request_spec {params : Json} {Q : Action → Traex → Prop} {E : String → Traex → Prop}
    (hQ : ∀ x : Action, x.startsTurn = decide (m = .turnStart) →
      x.remark = !decide (m = .turnStart) →
      steeredInto [x] = (params.index "expectedTurnId").str? → Q x (a.requested m))
    (hE : ∀ e, E e a) : wp (request m params) Q E a := by
  simp only [request, wp_bind, wp_current, wp_bailIf, wp_update, wp_pure]
  refine ⟨fun _ => hE _, fun _ => ⟨fun _ => hE _, fun _ => ?_⟩⟩
  refine hQ _ (startsTurn_request _ _) ?_ rfl
  show (!Action.startsTurn _) = _
  rw [startsTurn_request]

/-! ## The handshake -/

/-- What a program answers when it answers, from a state. -/
abbrev Answers (m : Step (List Action)) (a : Traex) (Q : List Action → Traex → Prop) : Prop :=
  wp m Q (fun _ _ => True) a

theorem Idle.answers {m : Step (List Action)} (h : Idle m Remarks) (hw : a.Wires) :
    Answers m a fun out a' => Remarks out ∧ a'.turns = a.turns ∧ a'.Wires :=
  wp_mono (h.alike a) (fun _ _ ht => ⟨ht.1, ht.2.1, ht.2.wires hw⟩) fun _ _ _ => trivial

theorem remarks_single {x : Action} (h : x.remark = true) : Remarks [x] :=
  remarks_cons.2 ⟨h, remarks_nil⟩

/-- A request that is no hand-off and starts no turn. -/
theorem request_idle {params : Json} (hw : a.Wires) (hm : m ≠ .turnSteer) (hs : m ≠ .turnStart)
    (hh : m.handshake = true → a.Settled ∧ (m = .initializing → a.phase = .initializing) ∧
      (m ≠ .initializing → a.phase = .opening)) :
    Answers (do let x ← request m params; pure [x]) a
      fun out a' => Remarks out ∧ a'.turns = a.turns ∧ a'.Wires := by
  refine wp_bind.2 (request_spec (fun x _ hx _ => ?_) fun _ => trivial)
  exact ⟨remarks_single (by simpa [hs] using hx), turns_requested hw, hw.requested hm hh⟩

theorem initializeServer_spec (hw : a.Wires) (hs : a.Settled) :
    Answers initializeServer a fun out a' =>
      Remarks out ∧ a'.turns = { a.turns with phase := .initializing } ∧ a'.Wires := by
  refine wp_bind.2 (wp_update.2 ?_)
  exact request_idle (hw.rephase hs rfl rfl) (by simp) (by simp)
    fun _ => ⟨hs, fun _ => rfl, fun h => absurd rfl h⟩

theorem openThread_spec (hw : a.Wires) (hs : a.Settled) (hp : a.phase = .opening) :
    Answers openThread a fun out a' => Remarks out ∧ a'.turns = a.turns ∧ a'.Wires := by
  refine wp_bind.2 (wp_current.2 (wp_bind.2 (wp_orError.2 ⟨fun config _ => ?_, fun _ => trivial⟩)))
  refine wp_bind.2 (wp_lift.2 ⟨fun permissions _ => ?_, fun _ _ => trivial⟩)
  by_cases hr : a.resume.isSome = true
  · simp only [if_pos hr]
    exact request_idle hw (by simp) (by simp) fun _ => ⟨hs, by simp, fun _ => hp⟩
  · simp only [if_neg hr]
    exact request_idle hw (by simp) (by simp) fun _ => ⟨hs, by simp, fun _ => hp⟩

theorem readConfig_spec (hw : a.Wires) (hs : a.Settled) (hp : a.phase = .opening) :
    Answers readConfig a fun out a' => Remarks out ∧ a'.turns = a.turns ∧ a'.Wires :=
  wp_bind.2 (wp_current.2 (request_idle hw (by simp) (by simp) fun _ => ⟨hs, by simp, fun _ => hp⟩))

theorem initialized_spec (hi : Plain i) (hw : a.Wires) (hs : a.Settled) :
    Answers initialized a fun out a' => Moves a.turns i out a'.turns ∧ a'.Wires := by
  refine wp_bind.2 (wp_current.2 (wp_ite.2 ⟨fun _ => ?_, fun _ => ?_⟩))
  · exact ⟨.rest (ignores_of_plain hi) hi.2 (remarks_single rfl), hw⟩
  · refine wp_bind.2 (wp_bailIf.2 ⟨fun _ => trivial, fun hp => ?_⟩)
    rw [not_not] at hp
    refine wp_bind.2 (wp_update.2 (wp_bind.2 ?_))
    have hnext : Answers (if a.config.any (·.provider.isSome) ∧ a.platformInstructions = "" then
        openThread else readConfig) { a with phase := .opening } fun out a' =>
          Remarks out ∧ a'.turns = { a.turns with phase := .opening } ∧ a'.Wires :=
      wp_ite.2 ⟨fun _ => openThread_spec (hw.rephase hs rfl rfl) hs rfl,
        fun _ => readConfig_spec (hw.rephase hs rfl rfl) hs rfl⟩
    refine wp_mono hnext (fun out a' ⟨hout, ht, hw'⟩ => ?_) fun _ _ _ => trivial
    rw [wp_pure, ht]
    exact ⟨.prepare hi (by simp [turns, hp]) (by simp) (remarks_cons.2 ⟨rfl, hout⟩), hw'⟩

theorem configRead_spec {result : Json} (hw : a.Wires) (hs : a.Settled) (hp : a.phase = .opening) :
    Answers (configRead result) a fun out a' => Remarks out ∧ a'.turns = a.turns ∧ a'.Wires := by
  refine wp_bind.2 (wp_update.2 (wp_bind.2 (wp_current.2 (wp_bind.2 ?_))))
  generalize hb : ({ a with
    nativeDeveloperInstructions := _, platformInstructions := _ } : Traex) = b
  have hab : Alike a b := by
    subst hb
    exact ⟨rfl, rfl, rfl⟩
  have hprovider : Idle (when (b.config.any (·.provider.isNone)) do
      let provider ← orError "Traex 未返回原生 Provider"
        (((result.index "config").index "model_provider").str?.filter (· ≠ ""))
      update fun a => { a with modelProvider := some provider }) fun _ => True :=
    .when (.bind .orError fun _ _ => .update fun _ => rfl)
  refine wp_mono (hprovider.alike b) (fun _ c ⟨_, hbc⟩ => ?_) fun _ _ _ => trivial
  refine wp_bind.2 (wp_update.2 ?_)
  generalize hd : ({ c with config := _ } : Traex) = d
  have had : Alike a d := by
    refine (hab.trans hbc).trans ?_
    subst hd
    exact ⟨rfl, rfl, rfl⟩
  have hsd : d.Settled := by
    intro p hp
    rw [had.2.1] at hp
    exact hs p hp
  refine wp_mono (openThread_spec (had.wires hw) hsd ?_) (fun _ _ ⟨h₁, h₂, h₃⟩ => ?_) fun _ _ _ => trivial
  · exact (congrArg Turns.phase had.1).trans hp
  · exact ⟨h₁, h₂.trans had.1, h₃⟩

theorem start_spec {prompt : String} (hw : a.Wires) (hs : a.Settled) :
    Answers (start prompt) a fun out a' =>
      (∃ frame, out = [frame] ∧ frame.startsTurn = true) ∧
        a'.turns = { a.turns with phase := .starting, early := [] } ∧ a'.Wires := by
  refine wp_bind.2 (wp_bailIf.2 ⟨fun _ => trivial, fun _ => ?_⟩)
  refine wp_bind.2 (wp_update.2 (wp_bind.2 (wp_current.2 (wp_bind.2 ?_))))
  refine wp_orError.2 ⟨fun config _ => wp_bind.2 ?_, fun _ => trivial⟩
  have hw' : ({ a with
      phase := .starting, earlyCompletions := [], streamed := [], tools := [] } : Traex).Wires :=
    hw.rephase hs rfl rfl
  refine request_spec (fun x hx _ _ => ?_) fun _ => trivial
  refine ⟨⟨x, rfl, by simpa using hx⟩, ?_, hw'.requested (by simp) (by simp [Method.handshake])⟩
  rw [turns_requested hw']
  rfl

theorem nameThread_spec {thread : String} {title : Option String} (hw : a.Wires) :
    Answers (nameThread thread title) a fun out a' =>
      Remarks out ∧ a'.turns = a.turns ∧ a'.Wires ∧ (a.Settled → a'.Settled) := by
  cases title with
  | none => exact ⟨remarks_nil, rfl, hw, id⟩
  | some title =>
    refine wp_bind.2 (wp_update.2 (wp_bind.2 (request_spec (fun x _ hx _ => ?_) fun _ => trivial)))
    have hw' : ({ a with rename := some title } : Traex).Wires := hw.of_eq rfl rfl rfl
    refine ⟨remarks_single (by simpa using hx), turns_requested hw',
      hw'.requested (by simp) (by simp [Method.handshake]), fun hs p hp => ?_⟩
    rw [pending_requested hw'] at hp
    rcases List.mem_append.1 hp with hp | hp
    · exact hs p hp
    · rw [List.mem_singleton.1 hp]
      rfl

theorem threadOpened_spec {result : Json} (hi : Plain i) (hw : a.Wires)
    (hs : a.Settled) (hp : a.phase = .opening) :
    Answers (threadOpened result) a fun out a' => Moves a.turns i out a'.turns ∧ a'.Wires := by
  refine wp_bind.2 (wp_lift.2 ⟨fun thread _ => ?_, fun _ _ => trivial⟩)
  refine wp_bind.2 (wp_current.2 (wp_bind.2 (wp_bailIf.2 ⟨fun _ => trivial, fun _ => ?_⟩)))
  refine wp_bind.2 (wp_update.2 (wp_bind.2 ?_))
  have hw₁ : ({ a with thread := some thread, phase := .ready, title := none } : Traex).Wires :=
    hw.rephase hs rfl rfl
  refine wp_mono (nameThread_spec hw₁) (fun renamed b ⟨hout, hturns, hwb, hsb⟩ => ?_)
    fun _ _ _ => trivial
  refine wp_bind.2 (wp_update.2 (wp_bind.2 ?_))
  have hwc : ({ b with pendingPrompt := none } : Traex).Wires := hwb.of_eq rfl rfl rfl
  rcases a.pendingPrompt with _ | prompt
  · refine ⟨?_, hwc⟩
    have hturns' : ({ b with pendingPrompt := none } : Traex).turns =
        { a.turns with thread := some thread, phase := .ready } := hturns
    rw [hturns']
    exact .«open» hi hp (remarks_cons.2 ⟨rfl, remarks_append.2 ⟨hout, remarks_nil⟩⟩)
  · refine wp_mono (start_spec hwc (hsb hs)) (fun started c ⟨⟨frame, hf, hframe⟩, hturns', hwd⟩ => ?_)
      fun _ _ _ => trivial
    refine ⟨?_, hwd⟩
    have hturns'' : c.turns =
        { a.turns with thread := some thread, phase := .starting, early := [] } := by
      rw [hturns']
      show ({ b.turns with phase := .starting, early := [] } : Turns) = _
      rw [hturns]
      rfl
    rw [hturns'', hf]
    have hready : Remarks (.ready :: renamed) := remarks_cons.2 ⟨rfl, hout⟩
    exact .openStart hi hp hready hframe

/-! ## The running turn -/

theorem interrupt_spec (hw : a.Wires) :
    Answers interrupt a fun out a' => Remarks out ∧ a'.turns = a.turns ∧ a'.Wires := by
  refine wp_bind.2 (wp_current.2 ?_)
  rcases a.turn with _ | turn
  · refine wp_ite.2 ⟨fun _ => ?_, fun _ => ⟨remarks_single rfl, rfl, hw⟩⟩
    exact ⟨remarks_nil, rfl, hw.of_eq rfl rfl rfl⟩
  · exact request_idle hw (by simp) (by simp) (by simp [Method.handshake])

theorem turnCompleted_spec (turn : Json) {id : String} (hw : a.Wires) (ht : a.turn = some id)
    (hs : a.Settled) :
    Answers (turnCompleted turn) a fun out a' => ∃ success message,
      out = a.turns.ending success message ∧ a'.turns = a.turns.completed id success ∧ a'.Wires := by
  refine wp_bind.2 (wp_lift.2 ⟨fun status _ => ?_, fun _ _ => trivial⟩)
  refine wp_bind.2 (wp_bailIf.2 ⟨fun _ => trivial, fun _ => ?_⟩)
  refine wp_bind.2 (wp_update.2 (wp_bind.2 (wp_current.2 (wp_bind.2 (wp_update.2 ?_)))))
  have hout : ∀ message, (if ¬status ≠ "completed" ∧ a.steered ≠ [] then
      [Action.inputsConsumed a.steered] else []) ++ [.finished (decide (status ≠ "completed")) message] =
        a.turns.ending (decide (status = "completed")) message := by
    intro message
    simp only [ending, decide_eq_true_eq, not_not, decide_not]
    rfl
  refine ⟨_, _, hout _, ?_, hw.rephase hs rfl rfl⟩
  simp only [turns, Turns.completed, ht, decide_not, Bool.not_not]

theorem turnNotification_idle {method : String} {params : Json} (h : method ≠ "turn/completed") :
    Idle (turnNotification method params) Remarks := by
  refine .ite ?_ (.ite (.pure (remarks_single rfl)) (.ite (item_idle _ _) ?_))
  · refine .bind .lift fun _ _ => .bind .current fun _ _ => .bind .bailIf fun _ _ => ?_
    refine .bind (.update fun _ => rfl) fun _ _ => .bind .orError fun _ _ => ?_
    exact .pure (remarks_cons.2 ⟨rfl, remarks_single rfl⟩)
  · rw [if_neg h]
    exact .ite .fail (.pure remarks_nil)

theorem turnNotification_completed (params : Json) :
    turnNotification "turn/completed" params = turnCompleted (params.index "turn") := by
  rw [turnNotification, if_neg (by decide), if_neg (by decide), if_neg (by decide), if_pos rfl]

/-- A message that is a completion. -/
abbrev isCompletion (m : Json) : Prop := (m.index "method").str? = some "turn/completed"

theorem completionOf_message {m : Json} (hid : (m.get? "id").isNone = true) (h : isCompletion m) :
    completionOf (.message (some m)) = some (((m.index "params").index "threadId").str?,
      (((m.index "params").index "turn").index "id").str?) := by
  rw [completionOf, if_pos ⟨h, hid⟩]

theorem completionOf_other {m : Json} (h : ¬isCompletion m ∨ (m.get? "id").isSome = true) :
    completionOf (.message (some m)) = none := by
  rw [completionOf, if_neg]
  rintro ⟨h₁, h₂⟩
  rcases h with h | h
  · exact h h₁
  · rw [Option.isNone_iff_eq_none] at h₂
    simp [h₂] at h

theorem plain_other {m : Json} (h : ¬isCompletion m ∨ (m.get? "id").isSome = true) :
    Plain (.message (some m)) := ⟨completionOf_other h, rfl⟩

/-- A notification that is no completion leaves the turns alone. -/
theorem afterAdmission_idle {m : Json} (h : ¬isCompletion m) : Idle (afterAdmission m) Remarks := by
  refine .bind .current fun a _ => ?_
  split
  · refine .ite ?_ (.pure remarks_nil)
    exact item_idle _ _
  · refine .ite (.pure remarks_nil) (turnNotification_idle ?_)
    intro he
    rcases hm : (m.index "method").str? with _ | s
    · rw [hm] at he
      exact absurd he (by decide)
    · rw [hm] at he
      exact h (hm.trans (congrArg some he))

/-- A completion ends the running turn when it names it, and does nothing otherwise. -/
theorem afterAdmission_completion {m : Json} (h : isCompletion m) :
    (afterAdmission m).run a =
      if (a.phase ≠ .running ∧ a.phase ≠ .starting) ∨
          (((m.index "params").index "turn").index "id").str? = none ∨
          (((m.index "params").index "turn").index "id").str? ≠ a.turn then (.ok [], a)
      else (turnCompleted ((m.index "params").index "turn")).run a := by
  have hm : (m.index "method").str?.getD "" = "turn/completed" := by
    rw [show (m.index "method").str? = some "turn/completed" from h]
    rfl
  have hnone : a.observedCommand "turn/completed" ((m.index "params").index "item") = none :=
    if_neg fun h => absurd h.1 (by decide)
  simp only [afterAdmission, hm, notifiedTurn, turnNotification_completed, if_true]
  rw [run_current_bind, hnone]
  dsimp only
  split_ifs <;> rfl

/-- The replay of a completion that came before its turn was admitted ends that turn. -/
theorem replay_spec {m : Json} {thread id : String} (hw : a.Wires)
    (hm : completionOf (.message (some m)) = some (some thread, some id))
    (hthread : a.thread = some thread) (ht : a.turn = some id) (hp : a.phase = .running) :
    Answers (replay (some m)) a fun out a' => ∃ success message,
      out = a.turns.ending success message ∧ a'.turns = a.turns.completed id success ∧ a'.Wires := by
  have hc : isCompletion m ∧ (m.get? "id").isNone = true := by
    by_contra hne
    rw [completionOf, if_neg hne] at hm
    cases hm
  rw [completionOf_message hc.2 hc.1] at hm
  obtain ⟨hmt, hmi⟩ := Prod.mk.inj (Option.some.inj hm)
  refine wp_bind.2 (wp_current.2 ?_)
  rw [if_neg (by rw [hmt, hthread]; simp)]
  have hrun := afterAdmission_completion (a := a) hc.1
  rw [if_neg (by simp [hp, hmi, ht])] at hrun
  have hspec := turnCompleted_spec ((m.index "params").index "turn") hw ht
    (hw.settled (by simp [hp]) (by simp [hp]))
  unfold wp at hspec ⊢
  unfold run at hrun
  rwa [hrun]

theorem field_str {v : Json} {key s : String} (h : field v key = .ok s) :
    (v.index key).str? = some s := by
  rw [field, Fallible.orError_eq_ok] at h
  exact Option.eq_some_of_filter_eq_some h

theorem admitTurn_spec {turn : Json} (hi : Plain i)
    (hadmits : admissionOf i = (turn.index "id").str?) (hsound : a.turns.Sound)
    (hw : a.Wires) (hp : a.phase = .starting) :
    Answers (admitTurn turn) a fun out a' => Moves a.turns i out a'.turns ∧ a'.Wires := by
  have hs : a.Settled := hw.settled (by simp [hp]) (by simp [hp])
  have hsteered : a.steered = [] := by
    by_contra hne
    have := hsound.steered hne
    simp [turns, hp] at this
  refine wp_bind.2 (wp_lift.2 ⟨fun id hfield => ?_, fun _ _ => trivial⟩)
  have hadmits : admissionOf i = some id := hadmits.trans (field_str hfield)
  refine wp_bind.2 (wp_update.2 (wp_bind.2 (wp_current.2 (wp_bind.2 (wp_orError.2 ⟨?_, fun _ => trivial⟩)))))
  intro thread hthread
  refine wp_bind.2 (wp_update.2 (wp_bind.2 ?_))
  -- the turn is admitted; what is left is the replay and the interrupt that waited
  generalize hb : ({ a with turn := some id, phase := .running, earlyCompletions := [] } : Traex) = b
  have hwb : b.Wires := by
    subst hb
    exact hw.rephase hs rfl rfl
  have hturns : b.turns = { a.turns with turn := some id, phase := .running, early := [] } := by
    subst hb
    rfl
  have hend : ∀ c : Traex, c.Wires → Answers
      (if c.interruptRequested then interrupt else pure []) { c with interruptRequested := false }
        fun out d => Remarks out ∧ d.turns = c.turns ∧ d.Wires := by
    intro c hwc
    have hwc' : ({ c with interruptRequested := false } : Traex).Wires := hwc.of_eq rfl rfl rfl
    exact wp_ite.2 ⟨fun _ => interrupt_spec hwc', fun _ => ⟨remarks_nil, rfl, hwc'⟩⟩
  rcases hlook : a.earlyCompletions.lookup id with _ | m
  · refine wp_bind.2 (wp_current.2 (wp_bind.2 (wp_update.2 (wp_bind.2 ?_))))
    refine wp_mono (hend b hwb) (fun out d ⟨hout, hd, hwd⟩ => ?_) fun _ _ _ => trivial
    refine ⟨?_, hwd⟩
    rw [hd, hturns]
    exact .admission hi hadmits hthread hp hlook hout
  · have hmem : (id, m) ∈ a.earlyCompletions := (lookup_eq_some hsound.earlyKeys).1 hlook
    have hmeans : completionOf (.message (some m)) = some (some thread, some id) := by
      rw [hsound.earlyMeans id m hmem]
      exact congrArg (fun t => some (t, some id)) hthread
    have hspec := replay_spec (a := b) hwb hmeans (by subst hb; exact hthread) (by subst hb; rfl)
      (by subst hb; rfl)
    refine wp_mono hspec (fun out c ⟨success, message, hout, hc, hwc⟩ => ?_) fun _ _ _ => trivial
    refine wp_bind.2 (wp_current.2 (wp_bind.2 (wp_update.2 (wp_bind.2 ?_))))
    refine wp_mono (hend c hwc) (fun rest d ⟨hrest, hd, hwd⟩ => ?_) fun _ _ _ => trivial
    refine ⟨?_, hwd⟩
    have hending : b.turns.ending success message = a.turns.ending success message := by
      rw [hturns]
      rfl
    rw [hd, hc, hout, hending, hturns]
    exact .admitCompleted hi hadmits hthread hp hlook hrest

theorem notification_spec {m : Json} (hid : (m.get? "id").isNone = true) (hsound : a.turns.Sound)
    (hw : a.Wires) : Answers (notification m) a fun out a' =>
      Moves a.turns (.message (some m)) out a'.turns ∧ a'.Wires := by
  have hrest : ∀ {m' : Step (List Action)}, ¬isCompletion m → Idle m' Remarks → Answers m' a
      fun out a' => Moves a.turns (.message (some m)) out a'.turns ∧ a'.Wires := by
    intro m' hc hidle
    refine wp_mono (hidle.answers hw) (fun out a' ⟨hout, ht, hw'⟩ => ⟨?_, hw'⟩) fun _ _ _ => trivial
    rw [ht]
    exact .rest (ignores_of_plain (plain_other (.inl hc))) rfl hout
  refine wp_bind.2 (wp_current.2 (wp_ite.2 ⟨fun hthread => ?_, fun hthread => ?_⟩))
  · refine ⟨.rest (fun thread id h ht => ?_) rfl remarks_nil, hw⟩
    by_cases hc : isCompletion m
    · rw [completionOf_message hid hc] at h
      have := (Prod.mk.inj (Option.some.inj h)).1
      exact absurd (this.trans ht.symm) hthread
    · simp [completionOf_other (.inl hc)] at h
  rw [not_not] at hthread
  refine wp_bind.2 (wp_current.2 (wp_ite.2 ⟨fun hname => ?_, fun _ => wp_ite.2 ⟨fun hstart => ?_,
    fun hns => wp_ite.2 ⟨fun hearly => ?_, fun hne => ?_⟩⟩⟩))
  · refine hrest (fun hc => ?_) (.pure fun x hx => ?_)
    · rw [show (m.index "method").str? = some "turn/completed" from hc] at hname
      exact absurd hname (by decide)
    · obtain ⟨_, _, rfl⟩ := List.mem_map.1 hx
      rfl
  · have hmethod : (m.index "method").str? = some "turn/started" := by
      rcases hm : (m.index "method").str? with _ | s
      · rw [hm] at hstart
        exact absurd hstart.1 (by decide)
      · rw [hm] at hstart
        exact congrArg some hstart.1
    refine admitTurn_spec (plain_other (.inl fun hc => ?_)) ?_ hsound hw hstart.2
    · rw [isCompletion, hmethod] at hc
      exact absurd hc (by decide)
    · rw [admissionOf, if_pos hmethod]
  · obtain ⟨hmethod, hp, _⟩ := hearly
    have hc : isCompletion m := by
      rcases hm : (m.index "method").str? with _ | s
      · rw [hm] at hmethod
        exact absurd hmethod (by decide)
      · rw [hm] at hmethod
        exact hm.trans (congrArg some hmethod)
    obtain ⟨thread, ht⟩ := Option.isSome_iff_exists.1 (hsound.thread (.inr (.inl hp)))
    refine wp_bind.2 (wp_current.2 (wp_bind.2 (wp_lift.2 ⟨fun id hfield => ?_, fun _ _ => trivial⟩)))
    refine wp_bind.2 (wp_bailIf.2 ⟨fun _ => trivial, fun _ => ?_⟩)
    refine ⟨.buffer rfl ?_ ht hp, hw.of_eq rfl rfl rfl⟩
    rw [completionOf_message hid hc, field_str hfield, hthread]
    exact congrArg (fun t => some (t, some id)) ht
  · by_cases hc : isCompletion m
    swap
    · exact hrest hc (afterAdmission_idle hc)
    have hmethod : (m.index "method").str?.getD "" = "turn/completed" := by
      rw [show (m.index "method").str? = some "turn/completed" from hc]
      rfl
    have hrun := afterAdmission_completion (a := a) hc
    unfold wp
    change (afterAdmission m) a = _ at hrun
    rw [hrun]
    split_ifs with hcond
    · refine ⟨.rest (fun thread id h ht => ?_) rfl remarks_nil, hw⟩
      rw [completionOf_message hid hc] at h
      have hid' := (Prod.mk.inj (Option.some.inj h)).2
      have hphase : a.phase ≠ .starting := fun hp => hne ⟨hmethod, hp, by
        by_contra hturn
        have := hsound.turn.1 (Option.ne_none_iff_isSome.1 hturn)
        rw [show a.phase = .running from this] at hp
        cases hp⟩
      refine ⟨fun hturn => ?_, hphase⟩
      have hrunning : a.phase = .running := hsound.turn.1 (by simp [hturn])
      rw [hid'] at hcond
      rcases hcond with ⟨hp, _⟩ | hnone | hne'
      · exact hp hrunning
      · cases hnone
      · exact hne' hturn.symm
    · simp only [not_or, not_and, not_not, ne_eq] at hcond
      obtain ⟨hphase, hsome, hturn⟩ := hcond
      obtain ⟨id, hid'⟩ := Option.ne_none_iff_exists'.1 hsome
      rw [hid'] at hturn
      have hrunning : a.phase = .running := hsound.turn.1 (by simp [turns, ← hturn])
      obtain ⟨thread, ht⟩ := Option.isSome_iff_exists.1 (hsound.thread (.inr (.inr hrunning)))
      have hspec := turnCompleted_spec ((m.index "params").index "turn") hw hturn.symm
        (hw.settled (by simp [hrunning]) (by simp [hrunning]))
      refine wp_mono hspec (fun out a' ⟨success, message, hout, ht', hw'⟩ => ⟨?_, hw'⟩)
        fun _ _ _ => trivial
      rw [hout, ht']
      refine .complete ?_ ht hturn.symm
      rw [completionOf_message hid hc, hid', hthread]
      exact congrArg (fun t => some (t, some id)) ht

/-! ## Answers -/

theorem steering_drop (n : ℕ) (l : List (ℕ × PendingRequest)) :
    steering (drop n l) = (steering l).filter (·.1 ≠ n) := by
  induction l with
  | nil => rfl
  | cons p l ih =>
    rcases hq : p.2.queuedInput with _ | q
    · by_cases hp : p.1 = n <;> simp_all [steering, drop]
    · by_cases hp : p.1 = n <;> simp_all [steering, drop]

theorem mem_steering {l : List (ℕ × PendingRequest)} {s : ℕ × String × String} :
    s ∈ steering l ↔ ∃ p ∈ l, p.1 = s.1 ∧ p.2.queuedInput = some s.2 := by
  simp only [steering, List.mem_filterMap, Option.map_eq_some_iff, Prod.ext_iff]
  constructor
  · rintro ⟨p, hp, q, hq, h₁, h₂⟩
    exact ⟨p, hp, h₁, hq.trans (congrArg some (Prod.ext h₂.1 h₂.2))⟩
  · rintro ⟨p, hp, h₁, h₂⟩
    exact ⟨p, hp, s.2, h₂, h₁, rfl, rfl⟩

theorem keys_eq (h : a.Wires) {p q : ℕ × PendingRequest} (hp : p ∈ a.pending) (hq : q ∈ a.pending)
    (he : p.1 = q.1) : p = q := List.inj_on_of_nodup_map h.keys hp hq he

/-- The adapter without an answered request. -/
theorem Wires.answered (h : a.Wires) (n : ℕ) :
    ({ a with pending := drop n a.pending } : Traex).Wires where
  keys := nodup_drop h.keys
  below p hp := h.below p (mem_drop.1 hp).1
  steer p hp := h.steer p (mem_drop.1 hp).1
  single := Nat.le_trans (List.filter_sublist.filter _).length_le h.single
  first p hp := h.first p (mem_drop.1 hp).1
  second p hp := h.second p (mem_drop.1 hp).1

/-- With the one request of the handshake answered, none is under way. -/
theorem Wires.settled_answered (h : a.Wires) {n : ℕ} {r : PendingRequest} (hr : (n, r) ∈ a.pending)
    (hh : r.method.handshake = true) :
    ({ a with pending := drop n a.pending } : Traex).Settled := by
  intro p hp
  obtain ⟨hmem, hne⟩ := mem_drop.1 hp
  by_contra hph
  rw [Bool.not_eq_false] at hph
  have h₁ : p ∈ a.pending.filter (·.2.method.handshake) := List.mem_filter.2 ⟨hmem, hph⟩
  have h₂ : (n, r) ∈ a.pending.filter (·.2.method.handshake) := List.mem_filter.2 ⟨hr, hh⟩
  have hone := h.single
  rcases hl : a.pending.filter (·.2.method.handshake) with _ | ⟨q, _ | ⟨q', l⟩⟩
  · rw [hl] at h₁
    exact absurd h₁ List.not_mem_nil
  · rw [hl, List.mem_singleton] at h₁ h₂
    rw [h₁, ← h₂] at hne
    exact hne rfl
  · rw [hl] at hone
    simp at hone

theorem turns_answered (h : a.Wires) {n : ℕ} {r : PendingRequest} (hr : (n, r) ∈ a.pending)
    (hq : r.queuedInput = none) : ({ a with pending := drop n a.pending } : Traex).turns = a.turns := by
  have hs : steering (drop n a.pending) = steering a.pending := by
    rw [steering_drop, List.filter_eq_self]
    intro s hs
    obtain ⟨p, hp, hpn, hpq⟩ := mem_steering.1 hs
    rw [decide_eq_true_eq]
    intro hsn
    have := keys_eq h hp hr (hpn.trans hsn)
    rw [this, hq] at hpq
    cases hpq
  simp only [turns, hs]

theorem turns_settled (n : ℕ) :
    ({ a with pending := drop n a.pending } : Traex).turns = a.turns.settle n := by
  simp only [turns, Turns.settle, steering_drop]

theorem steerAnswered_spec {result : Json} {r turn : String} {n : ℕ} (hi : Plain i)
    (hsound : a.turns.Sound) (hw : a.Wires) (hs : (n, r, turn) ∈ a.turns.steering) :
    Answers (steerAnswered r turn result) { a with pending := drop n a.pending }
      fun out a' => Moves a.turns i out a'.turns ∧ a'.Wires := by
  have hb := turns_settled (a := a) n
  have hwb := hw.answered n
  refine wp_bind.2 (wp_bailIf.2 ⟨fun _ => trivial, fun _ => wp_bind.2 (wp_current.2 ?_)⟩)
  refine wp_ite.2 ⟨fun ⟨ht, hp⟩ => ?_, fun hne => wp_ite.2 ⟨fun hc => ?_, fun _ => trivial⟩⟩
  · refine ⟨?_, hwb.of_eq rfl rfl rfl⟩
    have hturns : ({ a with
        pending := drop n a.pending, steered := a.steered.insert r } : Traex).turns =
          { a.turns.settle n with steered := a.turns.steered.insert r } := by
      rw [← hb]
      rfl
    show Moves a.turns i [] ({ a with
      pending := drop n a.pending, steered := a.steered.insert r } : Traex).turns
    rw [hturns]
    exact .accepted hi hs ht hp
  · refine ⟨?_, hwb⟩
    rw [hb]
    rcases hsound.steering _ hs with ⟨hp, ht⟩ | ⟨hp, hc'⟩
    · exact absurd ⟨ht, hp⟩ hne
    · exact .late hi hs hp hc'

theorem response_spec {m : Json} (hmethod : m.get? "method" = none) (hsound : a.turns.Sound)
    (hw : a.Wires) : Answers (response m) a fun out a' =>
      Moves a.turns (.message (some m)) out a'.turns ∧ a'.Wires := by
  have hnone : (m.index "method").str? = none := by
    rw [Json.index, hmethod]
    rfl
  have hi : Plain (.message (some m)) :=
    plain_other (.inl fun hc => by
      rw [isCompletion, hnone] at hc
      cases hc)
  generalize hmi : Input.message (some m) = i at hi ⊢
  have hignore : a.turns.Ignores i := ignores_of_plain hi
  refine wp_bind.2 (wp_current.2 ?_)
  rcases hfound : a.answeredBy m with _ | ⟨n, request⟩
  · exact ⟨.rest hignore hi.2 remarks_nil, hw⟩
  have hmem : (n, request) ∈ a.pending := by
    obtain ⟨id, _, hfind⟩ := Option.bind_eq_some_iff.1 hfound
    exact List.mem_of_find?_eq_some hfind
  have hwb := hw.answered n
  refine wp_bind.2 (wp_update.2 ?_)
  have hrest : ∀ {out : List Action} {b : Traex}, request.queuedInput = none →
      b.turns = ({ a with pending := drop n a.pending } : Traex).turns → b.Wires → Remarks out →
      Moves a.turns i out b.turns ∧ b.Wires := by
    intro out b hq hb hwb' hout
    rw [hb, turns_answered hw hmem hq]
    exact ⟨.rest hignore hi.2 hout, hwb'⟩
  rcases herr : m.get? "error" with _ | error
  -- a result
  · refine wp_bind.2 (wp_orError.2 ⟨fun result hresult => ?_, fun _ => trivial⟩)
    rcases hq : request.queuedInput with _ | ⟨r, turn⟩
    swap
    · exact steerAnswered_spec hi hsound hw (mem_steering.2 ⟨_, hmem, rfl, hq⟩)
    have hturns := turns_answered hw hmem hq
    have hsettled : request.method.handshake = true → _ := hw.settled_answered hmem
    have hfirst := hw.first _ hmem
    have hsecond := hw.second _ hmem
    rcases hmethod : request.method <;> simp only [hmethod] at hsettled hfirst hsecond
    case initializing =>
      rw [← hturns]
      exact initialized_spec hi hwb (hsettled rfl)
    case configRead =>
      refine wp_mono (configRead_spec hwb (hsettled rfl) (hsecond rfl (by simp)))
        (fun out b ⟨hout, hb, hwb'⟩ => hrest hq hb hwb' hout) fun _ _ _ => trivial
    case threadStart =>
      rw [← hturns]
      exact threadOpened_spec hi hwb (hsettled rfl) (hsecond rfl (by simp))
    case threadResume =>
      rw [← hturns]
      exact threadOpened_spec hi hwb (hsettled rfl) (hsecond rfl (by simp))
    case threadNameSet =>
      refine wp_bind.2 (wp_current.2 (wp_bind.2 (wp_update.2 ?_)))
      refine hrest hq rfl (hwb.of_eq rfl rfl rfl) fun x hx => ?_
      obtain ⟨_, _, rfl⟩ := List.mem_map.1 hx
      rfl
    case turnStart =>
      rw [← hturns]
      refine wp_bind.2 (wp_current.2 (wp_ite.2 ⟨fun hp => ?_, fun _ => ?_⟩))
      · refine admitTurn_spec hi ?_ (by rw [hturns]; exact hsound) hwb hp
        have hindex : m.index "result" = result := by
          rw [Json.index, hresult]
          rfl
        rw [← hmi, admissionOf, if_neg (by simp [hnone]), hindex]
      · exact ⟨.rest (ignores_of_plain hi) hi.2 remarks_nil, hwb⟩
    case turnSteer => trivial
    case turnInterrupt => exact hrest hq rfl hwb (remarks_single rfl)
  -- an error
  · have hrefusal : refusal i = true := by
      rw [← hmi, refusal, herr]
      rfl
    rcases hq : request.queuedInput with _ | ⟨r, turn⟩
    · simp only [refused, hq]
      refine wp_bind.2 (wp_current.2 (wp_ite.2 ⟨fun _ => ?_, fun _ => wp_ite.2 ⟨fun _ => ?_,
        fun _ => trivial⟩⟩))
      · exact hrest hq rfl hwb (remarks_single rfl)
      · exact hrest hq rfl (hwb.of_eq rfl rfl rfl) (remarks_single rfl)
    · simp only [refused, hq]
      refine ⟨?_, hwb⟩
      rw [turns_settled]
      exact .rejected hi hrefusal (mem_steering.2 ⟨_, hmem, rfl, hq⟩)

/-! ## Every input -/

theorem outstanding_turns : a.turns.outstanding = a.outstanding := by
  have h : (steering a.pending).map (·.2.1) =
      a.pending.filterMap fun p => p.2.queuedInput.map (·.1) := by
    rw [steering, List.map_filterMap]
    refine List.filterMap_congr fun p _ => ?_
    rcases p.2.queuedInput with _ | _ <;> rfl
  rw [Turns.outstanding, Traex.outstanding]
  exact congrArg (a.steered ++ ·) h

theorem length_steering : (steering a.pending).length =
    (a.pending.filter (·.2.queuedInput.isSome)).length := by
  rw [steering, List.length_filterMap_eq_countP, List.countP_eq_length_filter]
  congr 1
  refine List.filter_congr fun p _ => ?_
  rcases p.2.queuedInput with _ | _ <;> rfl

/-- The last request made a hand-off. -/
theorem pending_steered (hw : a.Wires) (q : String × String) :
    (a.requested .turnSteer).pending.map (fun p =>
      if p.1 = a.counter + 1 then (p.1, { p.2 with queuedInput := some q }) else p) =
    a.pending ++ [(a.counter + 1, { method := .turnSteer, queuedInput := some q })] := by
  rw [pending_requested hw, List.map_append]
  congr 1
  · conv_rhs => rw [← List.map_id a.pending]
    refine List.map_congr_left fun p hp => ?_
    have := hw.below p hp
    rw [if_neg (by omega)]
    rfl
  · simp

theorem Wires.steered (hw : a.Wires) {b : Traex} {q : String × String}
    (hp : b.pending = a.pending ++ [(a.counter + 1, { method := .turnSteer, queuedInput := some q })])
    (hc : b.counter = a.counter + 1) (hphase : b.phase = a.phase) : b.Wires := by
  refine ⟨?_, ?_, ?_, ?_, ?_, ?_⟩ <;> simp only [hp, hc, hphase, List.mem_append, List.mem_singleton]
  · rw [List.map_append, List.nodup_append]
    refine ⟨hw.keys, by simp, fun n hn k hk => ?_⟩
    obtain ⟨p, hp, rfl⟩ := List.mem_map.1 hn
    obtain rfl : k = a.counter + 1 := by simpa using hk
    have := hw.below p hp
    omega
  · rintro p (hp | rfl)
    · have := hw.below p hp
      omega
    · exact Nat.le_refl _
  · rintro p (hp | rfl)
    · exact hw.steer p hp
    · simp
  · rw [List.filter_append, List.length_append]
    simpa [Method.handshake] using hw.single
  · rintro p (hp | rfl)
    · exact hw.first p hp
    · simp
  · rintro p (hp | rfl)
    · exact hw.second p hp
    · simp [Method.handshake]

theorem steer_spec {r prompt uuid : String} (hw : a.Wires) (hr : r ∉ a.outstanding) :
    wp (steer r prompt) (fun out a' => Moves a.turns (.queue r prompt uuid) out a'.turns ∧ a'.Wires)
      (fun _ a' => a' = a) a := by
  refine wp_bind.2 (wp_current.2 (wp_bind.2 (wp_bailIf.2 ⟨fun _ => rfl, fun hrun => ?_⟩)))
  refine wp_bind.2 (wp_bailIf.2 ⟨fun _ => rfl, fun _ => ?_⟩)
  refine wp_bind.2 (wp_bailIf.2 ⟨fun _ => rfl, fun hroom => wp_bind.2 ?_⟩)
  refine request_spec (fun x _ hx hinto => ?_) fun _ => rfl
  refine wp_bind.2 (wp_update.2 ?_)
  rw [not_or, not_not] at hrun
  obtain ⟨turn, ht⟩ := Option.ne_none_iff_exists'.1 hrun.2
  have hpending := pending_steered hw (r, a.turn.getD "")
  refine ⟨?_, hw.steered hpending rfl rfl⟩
  have hturns : ({ a.requested .turnSteer with
      pending := (a.requested .turnSteer).pending.map fun p =>
        if p.1 = a.counter + 1 then (p.1, { p.2 with queuedInput := some (r, a.turn.getD "") })
        else p } : Traex).turns =
      { a.turns with steering := a.turns.steering ++ [(a.counter + 1, r, turn)] } := by
    have hsteering : steering (a.pending ++
        [(a.counter + 1, { method := .turnSteer, queuedInput := some (r, a.turn.getD "") })]) =
          steering a.pending ++ [(a.counter + 1, r, turn)] := by
      rw [steering_append, ht]
      rfl
    rw [← hpending] at hsteering
    simp only [turns, hsteering]
    rfl
  show Moves a.turns _ [x] ({ a.requested .turnSteer with
    pending := (a.requested .turnSteer).pending.map fun p =>
      if p.1 = a.counter + 1 then (p.1, { p.2 with queuedInput := some (r, a.turn.getD "") })
      else p } : Traex).turns
  rw [hturns]
  refine .steer rfl hrun.1 ht ?_ (by rwa [outstanding_turns]) (fun s hs => ?_)
    (remarks_single (by simpa using hx)) (hinto.trans ?_)
  · show a.steered.length + (steering a.pending).length < 16
    rw [length_steering]
    omega
  · obtain ⟨p, hp, hpn, _⟩ := mem_steering.1 hs
    have := hw.below p hp
    omega
  · rw [ht]
    rfl

/-- Every input is a move; a refused one that the actor puts up with changes no turn. -/
theorem advance_spec (hsound : a.turns.Sound) (hw : a.Wires) (hserves : a.serves i = true) :
    wp (advance i) (fun out a' => Moves a.turns i out a'.turns ∧ a'.Wires)
      (fun _ a' => i.lenient = true → a'.turns = a.turns ∧ a'.Wires) a := by
  have hfatal : ∀ {m : Step (List Action)} {Q : List Action → Traex → Prop}, i.lenient = false →
      Answers m a Q → wp m Q (fun _ a' => i.lenient = true → a'.turns = a.turns ∧ a'.Wires) a :=
    fun hi h => wp_mono h (fun _ _ h => h) fun _ _ _ hl => by simp [hi] at hl
  have hrest : ∀ {m : Step (List Action)}, Plain i →
      Answers m a (fun out a' => Remarks out ∧ a'.turns = a.turns ∧ a'.Wires) →
      Answers m a fun out a' => Moves a.turns i out a'.turns ∧ a'.Wires := by
    intro m hi h
    refine wp_mono h (fun out a' ⟨hout, ht, hw'⟩ => ⟨?_, hw'⟩) fun _ _ _ => trivial
    rw [ht]
    exact .rest (ignores_of_plain hi) hi.2 hout
  have hfresh : ∀ b : Traex, Plain i → a.phase = .fresh → b.turns = a.turns →
      b.pending = a.pending → b.counter = a.counter → Answers initializeServer b
        fun out a' => Moves a.turns i out a'.turns ∧ a'.Wires := by
    intro b hi hp hb hpending hcounter
    have hs : a.Settled := hw.settled (by simp [hp]) (by simp [hp])
    have hsb : b.Settled := by
      intro p hp
      rw [hpending] at hp
      exact hs p hp
    refine wp_mono (initializeServer_spec (hw.rephase hs hpending hcounter) hsb)
      (fun out a' ⟨hout, ht, hw'⟩ => ⟨?_, hw'⟩) fun _ _ _ => trivial
    rw [ht, hb]
    exact .prepare hi (by simp [turns, hp]) (by simp) hout
  cases i with
  | «open» =>
    refine hfatal rfl (wp_bind.2 (wp_current.2 (wp_ite.2 ⟨fun hp => ?_, fun _ => trivial⟩)))
    exact hfresh a ⟨rfl, rfl⟩ hp rfl rfl rfl
  | discoverCommands =>
    have hp : a.phase = .fresh := by simpa [serves] using hserves
    exact hfatal rfl (wp_bind.2 (wp_update.2 (hfresh _ ⟨rfl, rfl⟩ hp rfl rfl rfl)))
  | start prompt =>
    refine hfatal rfl (wp_bind.2 (wp_current.2 ?_))
    rcases hp : a.phase with _ | _ | _ | _ | _ | _
    case fresh =>
      refine wp_bind.2 (wp_bailIf.2 ⟨fun _ => trivial, fun _ => wp_bind.2 (wp_update.2 ?_)⟩)
      exact hfresh _ ⟨rfl, rfl⟩ hp rfl rfl rfl
    case ready =>
      have hnil : a.pending = [] := by simpa [serves, hp, canStartTurn] using hserves
      have hs : a.Settled := hw.settled (by simp [hp]) (by simp [hp])
      refine wp_mono (start_spec hw hs) (fun out a' ⟨⟨frame, hout, hframe⟩, ht, hw'⟩ => ⟨?_, hw'⟩)
        fun _ _ _ => trivial
      rw [hout, ht]
      exact .start ⟨rfl, rfl⟩ hp (by simp [turns, hnil, steering]) hframe
    all_goals trivial
  | interrupt => exact hfatal rfl (hrest ⟨rfl, rfl⟩ (interrupt_spec hw))
  | queue r prompt uuid =>
    refine wp_mono (steer_spec hw (by simpa [serves] using hserves)) (fun _ _ h => h) ?_
    rintro _ _ rfl _
    exact ⟨rfl, hw⟩
  | renameTitle id title =>
    refine wp_bind.2 (wp_current.2 (wp_bind.2 (wp_bailIf.2 ⟨fun _ _ => ⟨rfl, hw⟩, fun _ => ?_⟩)))
    have hw' : ({ a with rename := some title } : Traex).Wires := hw.of_eq rfl rfl rfl
    refine wp_bind.2 (wp_update.2 (wp_bind.2 (request_spec (fun x _ hx _ => ⟨?_, ?_⟩)
      fun _ _ => ⟨rfl, hw'⟩)))
    · rw [turns_requested hw']
      exact .rest (ignores_of_plain ⟨rfl, rfl⟩) rfl (remarks_single (by simpa using hx))
    · exact hw'.requested (by simp) (by simp [Method.handshake])
  | approval id input allow =>
    refine hfatal rfl (hrest ⟨rfl, rfl⟩ (Idle.answers ?_ hw))
    refine .bind .current fun _ _ => .bind .orError fun p _ => .bind (.update fun _ => rfl) ?_
    exact fun _ _ => .pure (remarks_single rfl)
  | questionAnswer id input questions answers =>
    refine hfatal rfl (hrest ⟨rfl, rfl⟩ (Idle.answers ?_ hw))
    exact .bind .lift fun _ _ => .pure (remarks_single rfl)
  | message line =>
    refine hfatal rfl (wp_bind.2 (wp_orError.2 ⟨fun m hm => ?_, fun _ => trivial⟩))
    obtain rfl : line = some m := hm
    by_cases hmethod : (m.get? "method").isSome = true
    · rw [if_pos hmethod]
      by_cases hid : (m.get? "id").isSome = true
      · rw [if_pos hid]
        exact hrest (plain_other (.inr hid)) ((nativeRequest_idle m).answers hw)
      · rw [if_neg hid]
        exact notification_spec (by simpa using hid) hsound hw
    · rw [if_neg hmethod]
      exact response_spec (by simpa using hmethod) hsound hw

end Traex

end LatteWork
