import LatteWork.Agents.Traex
import LatteWork.Lib.Machine

/-!
# The turns of a Traex thread

What of the adapter decides about turns and handed-off inputs, and all that one input can do to it
(`Moves`). Every function of the adapter is shown to be one of these moves once, in `TraexMoves`;
what is proved of whole runs is proved from the moves.
-/

namespace LatteWork

namespace Action

/-- The frame that starts a turn. -/
def startsTurn : Action → Bool
  | .write frame => (frame.index "method").str? = some "turn/start"
  | _ => false

/-- An action that tells nothing of a turn or of an input. -/
def remark : Action → Bool
  | .nativeSession _ | .finished .. | .inputsConsumed _ | .inputRejected .. => false
  | a => !a.startsTurn

def isNativeSession : Action → Bool
  | .nativeSession _ => true
  | _ => false

end Action

namespace Traex

/-- The thread and the turn a completion names. -/
def completionOf : Input → Option (Option String × Option String)
  | .message (some m) =>
    if (m.index "method").str? = some "turn/completed" ∧ (m.get? "id").isNone then
      some (((m.index "params").index "threadId").str?,
        (((m.index "params").index "turn").index "id").str?)
    else none
  | _ => none

/-- The turn that a notification or an answer says has started. -/
def admissionOf : Input → Option String
  | .message (some m) =>
    if (m.index "method").str? = some "turn/started" then
      (((m.index "params").index "turn").index "id").str?
    else (((m.index "result").index "turn").index "id").str?
  | _ => none

/-- The request an input hands over. -/
def handOff : Input → Option String
  | .queue requestId .. => some requestId
  | _ => none

/-- An answer that refuses a request. -/
def refusal : Input → Bool
  | .message (some m) => (m.get? "error").isSome
  | _ => false

/-- Neither a completion nor a hand-off. -/
def Plain (i : Input) : Prop := completionOf i = none ∧ handOff i = none

/-- The turn a frame hands an input into. -/
def steeredInto : List Action → Option String
  | [.write frame] => ((frame.index "params").index "expectedTurnId").str?
  | _ => none

/-- The part of the adapter that turns are decided by. `steering` are the handed-off inputs that
are not answered: the number of the request, the input, and the turn it was handed into. -/
structure Turns where
  phase : Phase
  thread : Option String
  turn : Option String
  completedTurn : Option String
  completedSuccess : Bool
  steered : List String
  early : List (String × Json)
  steering : List (ℕ × String × String)

def steering (pending : List (ℕ × PendingRequest)) : List (ℕ × String × String) :=
  pending.filterMap fun p => p.2.queuedInput.map fun q => (p.1, q)

def turns (a : Traex) : Turns where
  phase := a.phase
  thread := a.thread
  turn := a.turn
  completedTurn := a.completedTurn
  completedSuccess := a.completedSuccess
  steered := a.steered
  early := a.earlyCompletions
  steering := Traex.steering a.pending

namespace Turns

def outstanding (c : Turns) : List String := c.steered ++ c.steering.map (·.2.1)

/-- The turn is over. -/
def completed (c : Turns) (id : String) (success : Bool) : Turns :=
  { c with
    phase := .ready, turn := none, completedTurn := some id, completedSuccess := success
    steered := [] }

/-- The answer to a hand-off is in. -/
def settle (c : Turns) (number : ℕ) : Turns :=
  { c with steering := c.steering.filter (·.1 ≠ number) }

/-- An input that is no completion this state waits for. -/
def Ignores (c : Turns) (i : Input) : Prop :=
  ∀ thread id, completionOf i = some (some thread, some id) → c.thread = some thread →
    c.turn ≠ some id ∧ c.phase ≠ .starting

/-- Actions of which none tells of a turn or of an input. -/
def Remarks (out : List Action) : Prop := ∀ x ∈ out, x.remark = true

/-- The actions a turn ends with. -/
def ending (c : Turns) (success : Bool) (message : Option String) : List Action :=
  (if success ∧ c.steered ≠ [] then [.inputsConsumed c.steered] else []) ++
    [.finished (!success) message]

/-- All that one accepted input does to the turns. -/
inductive Moves (c : Turns) (i : Input) : List Action → Turns → Prop
  | rest {out} : c.Ignores i → handOff i = none → Remarks out → Moves c i out c
  | prepare {out phase} : Plain i → c.phase ∈ [.fresh, .initializing] →
      phase ∈ [.initializing, .opening] → Remarks out → Moves c i out { c with phase }
  | «open» {out thread} : Plain i → c.phase = .opening → Remarks out →
      Moves c i out { c with thread := some thread, phase := .ready }
  | openStart {out thread frame} : Plain i → c.phase = .opening → Remarks out →
      frame.startsTurn = true →
      Moves c i (out ++ [frame]) { c with thread := some thread, phase := .starting, early := [] }
  | start {frame} : Plain i → c.phase = .ready → c.steering = [] →
      frame.startsTurn = true → Moves c i [frame] { c with phase := .starting, early := [] }
  | steer {out r prompt uuid number turn} : i = .queue r prompt uuid → c.phase = .running →
      c.turn = some turn → c.steered.length + c.steering.length < 16 → r ∉ c.outstanding →
      (∀ s ∈ c.steering, s.1 ≠ number) → Remarks out → steeredInto out = some turn →
      Moves c i out { c with steering := c.steering ++ [(number, r, turn)] }
  | buffer {m thread id} : i = .message (some m) → completionOf i = some (some thread, some id) →
      c.thread = some thread → c.phase = .starting →
      Moves c i [] { c with early := Assoc.put id m c.early }
  | admission {thread id rest} : Plain i → admissionOf i = some id →
      c.thread = some thread → c.phase = .starting → c.early.lookup id = none → Remarks rest →
      Moves c i (.nativeSession thread :: rest)
        { c with turn := some id, phase := .running, early := [] }
  | admitCompleted {thread id m success message rest} : Plain i → admissionOf i = some id →
      c.thread = some thread → c.phase = .starting → c.early.lookup id = some m → Remarks rest →
      Moves c i (.nativeSession thread :: (c.ending success message ++ rest))
        ({ c with early := [] }.completed id success)
  | complete {thread id success message} : completionOf i = some (some thread, some id) →
      c.thread = some thread → c.turn = some id →
      Moves c i (c.ending success message) (c.completed id success)
  | accepted {number r turn} : Plain i → (number, r, turn) ∈ c.steering →
      c.turn = some turn → c.phase = .running →
      Moves c i [] { c.settle number with steered := c.steered.insert r }
  | late {number r turn} : Plain i → (number, r, turn) ∈ c.steering →
      c.phase = .ready → c.completedTurn = some turn →
      Moves c i (if c.completedSuccess then [.inputsConsumed [r]] else []) (c.settle number)
  | rejected {number r turn message} : Plain i → refusal i = true → (number, r, turn) ∈ c.steering →
      Moves c i [.inputRejected r message] (c.settle number)

/-- What every state has. -/
structure Sound (c : Turns) : Prop where
  thread : c.phase = .ready ∨ c.phase = .starting ∨ c.phase = .running → c.thread.isSome
  turn : c.turn.isSome ↔ c.phase = .running
  early : c.early ≠ [] → c.phase = .starting
  earlyKeys : (c.early.map (·.1)).Nodup
  earlyMeans : ∀ id m, (id, m) ∈ c.early → completionOf (.message (some m)) = some (c.thread, some id)
  steered : c.steered ≠ [] → c.phase = .running
  numbers : (c.steering.map (·.1)).Nodup
  steering : ∀ s ∈ c.steering, (c.phase = .running ∧ c.turn = some s.2.2) ∨
    (c.phase = .ready ∧ c.completedTurn = some s.2.2)
  inputs : c.outstanding.Nodup
  room : c.outstanding.length ≤ 16

variable {c c' : Turns} {i : Input} {out : List Action}

@[simp]
theorem outstanding_settle (number : ℕ) : (c.settle number).outstanding =
    c.steered ++ (c.steering.filter (·.1 ≠ number)).map (·.2.1) := rfl

theorem ignores_of_plain (h : Plain i) : c.Ignores i := by
  intro thread id hc
  rw [h.1] at hc
  cases hc

theorem outstanding_sublist_settle (number : ℕ) :
    (c.settle number).outstanding.Sublist c.outstanding :=
  .append_left (List.filter_sublist.map _) _

/-- The input of a hand-off is no other's, and was not accepted before. -/
theorem Sound.own (h : c.Sound) {number : ℕ} {r turn : String}
    (hs : (number, r, turn) ∈ c.steering) : r ∉ (c.settle number).outstanding := by
  have hin := h.inputs
  rw [outstanding, List.nodup_append] at hin
  obtain ⟨_, hsteering, hapart⟩ := hin
  rw [outstanding_settle, List.mem_append, not_or]
  constructor
  · intro hr
    exact hapart r hr r (List.mem_map.2 ⟨_, hs, rfl⟩) rfl
  · intro hr
    obtain ⟨t, ht, hrt⟩ := List.mem_map.1 hr
    obtain ⟨hts, hne⟩ := List.mem_filter.1 ht
    have heq : t = (number, r, turn) := List.inj_on_of_nodup_map hsteering hts hs hrt
    rw [heq] at hne
    simp at hne

theorem Sound.settle (h : c.Sound) (number : ℕ) : (c.settle number).Sound where
  thread := h.thread
  turn := h.turn
  early := h.early
  earlyKeys := h.earlyKeys
  earlyMeans := h.earlyMeans
  steered := h.steered
  numbers := (List.filter_sublist.map _).nodup h.numbers
  steering s hs := h.steering s (List.mem_filter.1 hs).1
  inputs := (outstanding_sublist_settle number).nodup h.inputs
  room := Nat.le_trans (outstanding_sublist_settle number).length_le h.room

/-- The turn is over: what was accepted is no longer outstanding. -/
theorem Sound.completed (h : c.Sound) {id : String} {success : Bool}
    (hthread : c.thread.isSome) (hearly : c.early = []) (hturn : ∀ s ∈ c.steering, s.2.2 = id) :
    (c.completed id success).Sound where
  thread _ := hthread
  turn := by simp [Turns.completed]
  early := by simp [Turns.completed, hearly]
  earlyKeys := h.earlyKeys
  earlyMeans := h.earlyMeans
  steered := by simp [Turns.completed]
  numbers := h.numbers
  steering s hs := .inr ⟨rfl, by rw [hturn s hs]; rfl⟩
  inputs := by
    have := h.inputs
    rw [outstanding, List.nodup_append] at this
    simpa [Turns.completed, outstanding] using this.2.1
  room := by
    have := h.room
    rw [outstanding, List.length_append] at this
    simp only [Turns.completed, outstanding, List.nil_append]
    omega

/-- Every move keeps the state sound. -/
theorem Moves.sound (h : c.Sound) (hm : Moves c i out c') : c'.Sound := by
  have hnone : c.phase ≠ .running → c.phase ≠ .ready → c.steering = [] := fun h₁ h₂ =>
    List.eq_nil_iff_forall_not_mem.2 fun s hs => (h.steering s hs).elim
      (fun h => h₁ h.1) (fun h => h₂ h.1)
  have hearly : c.phase ≠ .starting → c.early = [] := fun hp => by
    by_contra hne
    exact hp (h.early hne)
  have hsteered : c.phase ≠ .running → c.steered = [] := fun hp => by
    by_contra hne
    exact hp (h.steered hne)
  have hturn : c.phase ≠ .running → c.turn = none := fun hp => by
    rcases ht : c.turn with _ | t
    · rfl
    · exact absurd (h.turn.1 (by simp [ht])) hp
  cases hm with
  | rest => exact h
  | prepare _ hp hp' =>
    have hpne : c.phase ≠ .running ∧ c.phase ≠ .ready ∧ c.phase ≠ .starting := by
      simp only [List.mem_cons, List.not_mem_nil, or_false] at hp
      rcases hp with hp | hp <;> simp [hp]
    have hs := hnone hpne.1 hpne.2.1
    simp only [List.mem_cons, List.not_mem_nil, or_false] at hp'
    refine ⟨fun hph => ?_, ?_, fun hne => absurd (hearly hpne.2.2) hne, h.earlyKeys, h.earlyMeans,
      fun hne => absurd (hsteered hpne.1) hne, h.numbers, fun s hs' => by simp [hs] at hs',
      h.inputs, h.room⟩
    · rcases hp' with rfl | rfl <;> simp at hph
    · rw [hturn hpne.1]
      rcases hp' with rfl | rfl <;> simp
  | «open» _ hp =>
    have hs := hnone (by simp [hp]) (by simp [hp])
    have he := hearly (by simp [hp])
    refine ⟨fun _ => rfl, by simp [hturn (by simp [hp])], fun hne => absurd he hne, h.earlyKeys,
      fun id m hm => by simp [he] at hm, fun hne => absurd (hsteered (by simp [hp])) hne, h.numbers,
      fun s hs' => by simp [hs] at hs', h.inputs, h.room⟩
  | openStart _ hp =>
    have hs := hnone (by simp [hp]) (by simp [hp])
    exact ⟨fun _ => rfl, by simp [hturn (by simp [hp])], fun _ => rfl, List.nodup_nil,
      fun id m hm => by simp at hm, fun hne => absurd (hsteered (by simp [hp])) hne, h.numbers,
      fun s hs' => by simp [hs] at hs', h.inputs, h.room⟩
  | start _ hp hs =>
    exact ⟨fun _ => h.thread (.inl hp), by simp [hturn (by simp [hp])], fun _ => rfl, List.nodup_nil,
      fun id m hm => by simp at hm, fun hne => absurd (hsteered (by simp [hp])) hne, h.numbers,
      fun s hs' => by simp [hs] at hs', h.inputs, h.room⟩
  | steer _ hp ht hroom hr hfresh =>
    refine ⟨h.thread, h.turn, h.early, h.earlyKeys, h.earlyMeans, h.steered, ?_, fun s hs => ?_, ?_, ?_⟩
    · rw [List.map_append, List.nodup_append]
      refine ⟨h.numbers, by simp, fun a ha b hb => ?_⟩
      obtain ⟨s, hs, rfl⟩ := List.mem_map.1 ha
      rw [List.map_cons, List.map_nil, List.mem_singleton] at hb
      rw [hb]
      exact hfresh s hs
    · rcases List.mem_append.1 hs with hs | hs
      · exact h.steering s hs
      · rw [List.mem_singleton.1 hs]
        exact .inl ⟨hp, ht⟩
    · rw [outstanding, List.map_append, ← List.append_assoc, List.nodup_append]
      refine ⟨h.inputs, by simp, fun a ha b hb => ?_⟩
      rw [List.map_cons, List.map_nil, List.mem_singleton] at hb
      rintro rfl
      rw [hb] at ha
      exact hr ha
    · simp only [outstanding, List.map_append, List.length_append, List.length_map,
        List.map_cons, List.map_nil, List.length_singleton]
      omega
  | @buffer m thread id hi hc ht hp =>
    refine ⟨h.thread, h.turn, fun _ => hp, Assoc.nodup_put h.earlyKeys, fun k v hkv => ?_, h.steered,
      h.numbers, h.steering, h.inputs, h.room⟩
    rcases Assoc.mem_put.1 hkv with ⟨hin, _⟩ | heq
    · exact h.earlyMeans k v hin
    · obtain ⟨rfl, rfl⟩ := Prod.mk.inj heq
      rw [← hi, hc, ← ht]
  | admission _ _ ht hp _ _ =>
    have hs := hnone (by simp [hp]) (by simp [hp])
    exact ⟨fun _ => by simp [ht], by simp, fun hne => absurd rfl hne, List.nodup_nil,
      fun id m hm => by simp at hm, fun _ => rfl, h.numbers, fun s hs' => by simp [hs] at hs',
      h.inputs, h.room⟩
  | admitCompleted _ _ ht hp _ _ =>
    have hs := hnone (by simp [hp]) (by simp [hp])
    have hbare : ({ c with early := [] } : Turns).Sound :=
      ⟨h.thread, h.turn, fun hne => absurd rfl hne, List.nodup_nil, fun id m hm => by simp at hm,
        h.steered, h.numbers, h.steering, h.inputs, h.room⟩
    exact hbare.completed (by simp [ht]) rfl fun s hs' => by simp [hs] at hs'
  | complete _ hthread hturn' =>
    have hrun : c.phase = .running := h.turn.1 (by simp [hturn'])
    refine h.completed (by simp [hthread]) (hearly (by simp [hrun])) fun s hs => ?_
    rcases h.steering s hs with ⟨_, ht⟩ | ⟨hp, _⟩
    · exact Option.some.inj (ht.symm.trans hturn')
    · simp [hrun] at hp
  | @accepted number r turn _ hs ht hp =>
    have hset := h.settle number
    have hown := h.own hs
    have hnot : r ∉ c.steered := fun hr => hown (by
      rw [outstanding_settle, List.mem_append]
      exact .inl hr)
    have hout : (({ c.settle number with steered := c.steered.insert r } : Turns)).outstanding =
        r :: (c.settle number).outstanding := by
      simp only [outstanding, Turns.settle, List.insert_of_not_mem hnot]
      rfl
    refine ⟨h.thread, h.turn, h.early, h.earlyKeys, h.earlyMeans, fun _ => hp, hset.numbers,
      hset.steering, ?_, ?_⟩
    · rw [hout]
      exact List.nodup_cons.2 ⟨hown, hset.inputs⟩
    · have hlt : (c.settle number).outstanding.length < c.outstanding.length := by
        have hlen : (c.steering.filter (·.1 ≠ number)).length < c.steering.length :=
          List.length_filter_lt_length_iff_exists.2 ⟨_, hs, by simp⟩
        rw [outstanding_settle, outstanding, List.length_append, List.length_append, List.length_map,
          List.length_map]
        omega
      rw [hout, List.length_cons]
      have := h.room
      omega
  | late _ hs => exact h.settle _
  | rejected _ _ hs => exact h.settle _

end Turns

end Traex

end LatteWork
