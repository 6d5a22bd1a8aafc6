import LatteWork.Lib.Runs
import LatteWork.Proofs.NativeRequests

/-!
# Questions and approvals

A desk reads what an actor did and keeps what waits for the user, what was asked and what was
answered. Whatever happens, the actor does only what the desk allows, as long as no agent uses the id
of a request twice.
-/

namespace LatteWork

open Prog

/-- What an actor's outputs say of the interactions with its process: those that wait under a public
id, the native ids the user was asked about, those that were answered, and the decision that the
agent was given last. -/
structure Desk where
  pid : Option ℕ := none
  waiting : List (String × Interaction) := []
  asked : List String := []
  responded : List String := []
  due : Option (Interaction × Decision) := none

/-- A frame is what an adapter makes of a decision about what was asked. -/
def Decision.WrittenAs (x : Decision) (i : Interaction) (frame : Json) : Prop :=
  ∃ (a : Agent) (input : Input), x.Reaches i input ∧ (a.advance input).1 = .ok [.write frame]

namespace Desk

def after (d : Desk) : Output → Desk
  | .spawned pid => { pid := some pid }
  | .closed _ => {}
  | .asked _ publicId i => { d with
      waiting := d.waiting.filter (·.1 ≠ publicId) ++ [(publicId, i)]
      asked := i.nativeId :: d.asked
      due := none }
  | .answered _ publicId i x => { d with
      waiting := d.waiting.filter (·.1 ≠ publicId)
      due := some (i, x) }
  | .cleared => { d with waiting := [], due := none }
  | .wrote frame => { d with responded := (responds frame).toList ++ d.responded, due := none }
  | _ => { d with due := none }

/-- The desk after some outputs. -/
def of (outputs : List Output) : Desk := outputs.foldl after {}

/-- What may happen next. A new request of the process may begin to wait when less than 32 do; what
waits may be decided; the answer to what was asked is that decision as the adapter puts it, right
after it was given, and the only one; nothing waits when the session is reported as finished well. -/
def Allows (d : Desk) : Output → Prop
  | .asked pid _ i => d.pid = some pid ∧ d.waiting.length < 32 ∧
      i.nativeId ∉ d.asked ∧ i.nativeId ∉ d.responded
  | .answered pid publicId i x => d.pid = some pid ∧ d.waiting.lookup publicId = some i ∧
      ∃ input, x.Reaches i input
  | .committed op _ => op.completes = true → d.waiting = []
  | .wrote frame => ∀ r, responds frame = some r → d.pid ≠ none ∧ r ∉ d.responded ∧
      (r ∈ d.asked → ∃ i x, d.due = some (i, x) ∧ i.nativeId = r ∧ x.WrittenAs i frame)
  | _ => True

/-- What the desk keeps fits together. -/
structure Sound (d : Desk) : Prop where
  waiting : ∀ e ∈ d.waiting, e.2.nativeId ∈ d.asked ∧ e.2.nativeId ∉ d.responded
  apart : (d.waiting.map (·.2.nativeId)).Nodup
  few : d.waiting.length ≤ 32
  due : ∀ i x, d.due = some (i, x) → i.nativeId ∈ d.asked ∧ i.nativeId ∉ d.responded ∧
    ∀ e ∈ d.waiting, e.2.nativeId ≠ i.nativeId

variable {d : Desk} {o : Output} {outputs : List Output}

@[simp]
theorem of_concat : of (outputs ++ [o]) = (of outputs).after o := by
  simp [of]

theorem Sound.settled (h : d.Sound) : ({ d with due := none } : Desk).Sound :=
  ⟨h.waiting, h.apart, h.few, fun _ _ hd => nomatch hd⟩

theorem Sound.asks (h : d.Sound) {pid : ℕ} {publicId : String} {i : Interaction}
    (ho : d.Allows (.asked pid publicId i)) : (d.after (.asked pid publicId i)).Sound := by
  obtain ⟨-, hfew, hnew, hopen⟩ := ho
  refine ⟨fun e he => ?_, ?_, ?_, fun _ _ hd => nomatch hd⟩
  · rcases List.mem_append.1 he with he | he
    · obtain ⟨ha, hr⟩ := h.waiting e (List.mem_filter.1 he).1
      exact ⟨List.mem_cons_of_mem _ ha, hr⟩
    · obtain rfl := List.mem_singleton.1 he
      exact ⟨List.mem_cons_self, hopen⟩
  · simp only [after, List.map_append, List.map_cons, List.map_nil]
    refine List.nodup_append.2 ⟨h.apart.sublist (List.filter_sublist.map _), by simp, ?_⟩
    intro a ha b hb
    obtain ⟨e, he, rfl⟩ := List.mem_map.1 ha
    obtain rfl := List.mem_singleton.1 hb
    exact fun heq => hnew (heq ▸ (h.waiting e (List.mem_filter.1 he).1).1)
  · have := List.length_filter_le (fun e : String × Interaction => decide (e.1 ≠ publicId)) d.waiting
    simp only [after, List.length_append, List.length_singleton]
    omega

theorem Sound.answers (h : d.Sound) {pid : ℕ} {publicId : String} {i : Interaction} {x : Decision}
    (ho : d.Allows (.answered pid publicId i x)) :
    (d.after (.answered pid publicId i x)).Sound := by
  obtain ⟨-, hlookup, -⟩ := ho
  have hmem := Assoc.mem_of_lookup hlookup
  refine ⟨fun e he => h.waiting e (List.mem_filter.1 he).1,
    h.apart.sublist (List.filter_sublist.map _), (List.length_filter_le _ _).trans h.few, ?_⟩
  rintro i' x' hd
  obtain ⟨rfl, rfl⟩ := Prod.mk.inj (Option.some.inj hd)
  refine ⟨(h.waiting _ hmem).1, (h.waiting _ hmem).2, fun e he heq => ?_⟩
  obtain ⟨hin, hne⟩ := List.mem_filter.1 he
  have := List.inj_on_of_nodup_map h.apart hin hmem heq
  simp [this] at hne

theorem Sound.writes (h : d.Sound) {frame : Json} (ho : d.Allows (.wrote frame)) :
    (d.after (.wrote frame)).Sound := by
  refine ⟨fun e he => ?_, h.apart, h.few, fun _ _ hd => nomatch hd⟩
  obtain ⟨ha, hr⟩ := h.waiting e he
  refine ⟨ha, fun hin => ?_⟩
  rcases List.mem_append.1 hin with hin | hin
  · obtain ⟨i, x, hd, hi, -⟩ := (ho _ (Option.mem_toList.1 hin)).2.2 ha
    exact (h.due i x hd).2.2 e he hi.symm
  · exact hr hin

theorem Sound.next (h : d.Sound) (ho : d.Allows o) : (d.after o).Sound := by
  have empty : ∀ pid, ({ pid := pid } : Desk).Sound := fun _ =>
    ⟨fun e he => absurd he List.not_mem_nil, List.nodup_nil, by simp, fun _ _ hd => nomatch hd⟩
  cases o with
  | spawned pid => exact empty _
  | closed pid => exact empty _
  | asked pid publicId i => exact h.asks ho
  | answered pid publicId i x => exact h.answers ho
  | cleared =>
    exact ⟨fun e he => absurd he List.not_mem_nil, List.nodup_nil, by simp [after],
      fun _ _ hd => nomatch hd⟩
  | wrote frame => exact h.writes ho
  | committed | started | handed | replied => exact h.settled

end Desk

/-- Everything that was done was allowed when it was done. -/
def Orderly (outputs : List Output) : Prop :=
  ∀ before o rest, outputs = before ++ o :: rest → (Desk.of before).Allows o

theorem orderly_nil : Orderly [] := fun before o rest h => by simp at h

theorem orderly_concat {outputs : List Output} {o : Output} :
    Orderly (outputs ++ [o]) ↔ Orderly outputs ∧ (Desk.of outputs).Allows o := by
  constructor
  · exact fun h => ⟨fun before o' rest heq => h before o' (rest ++ [o]) (by simp [heq]),
      h outputs o [] rfl⟩
  · rintro ⟨h, ho⟩ before o' rest heq
    rcases List.eq_nil_or_concat rest with rfl | ⟨rest, last, rfl⟩
    · obtain ⟨rfl, hlast⟩ := List.append_inj' heq rfl
      obtain rfl := (List.singleton_inj.1 hlast)
      exact ho
    · rw [List.concat_eq_append, ← List.cons_append, ← List.append_assoc] at heq
      exact h before o' rest (List.append_inj' heq rfl).1

theorem Orderly.sound {outputs : List Output} (h : Orderly outputs) : (Desk.of outputs).Sound := by
  induction outputs using List.reverseRecOn with
  | nil =>
    exact ⟨fun e he => absurd he List.not_mem_nil, List.nodup_nil, by simp [Desk.of],
      fun _ _ hd => nomatch hd⟩
  | append_singleton outputs o ih =>
    obtain ⟨h, ho⟩ := orderly_concat.1 h
    rw [Desk.of_concat]
    exact (ih h).next ho

/-- A process answers no request twice. -/
def AnsweredOnce (outputs : List Output) : Prop :=
  ∀ l₁ f₁ l₂ f₂ l₃ r, outputs = l₁ ++ .wrote f₁ :: l₂ ++ .wrote f₂ :: l₃ →
    responds f₁ = some r → responds f₂ = some r → ∃ pid, .spawned pid ∈ l₂

theorem Orderly.answeredOnce {outputs : List Output} (h : Orderly outputs) :
    AnsweredOnce outputs := by
  intro l₁ f₁ l₂ f₂ l₃ r heq h₁ h₂
  by_contra hn
  obtain ⟨hpid, hopen, -⟩ := h _ _ _ heq r h₂
  -- with no other process, the request stays answered for as long as this one lives
  have kept : (Desk.of (l₁ ++ .wrote f₁ :: l₂)).pid = none ∨
      r ∈ (Desk.of (l₁ ++ .wrote f₁ :: l₂)).responded := by
    clear heq hpid hopen
    induction l₂ using List.reverseRecOn with
    | nil => exact .inr (by simp [Desk.after, h₁])
    | append_singleton l₂ o ih =>
      have ih := ih fun ⟨pid, hp⟩ => hn ⟨pid, List.mem_append_left _ hp⟩
      rw [← List.cons_append, ← List.append_assoc, Desk.of_concat]
      cases o with
      | spawned pid => exact absurd ⟨pid, by simp⟩ hn
      | closed pid => exact .inl rfl
      | wrote frame => exact ih.imp_right (List.mem_append_right _)
      | asked | answered | cleared | committed | started | handed | replied => exact ih
  exact kept.elim hpid hopen

/-- What was asked under a public id does not wait any more. -/
def Output.voids (id : String) : Output → Prop
  | .asked _ publicId _ | .answered _ publicId _ _ => publicId = id
  | .cleared | .closed _ | .spawned _ => True
  | _ => False

/-- What waits was asked under its public id, and nothing voided that. -/
theorem Desk.origin {outputs : List Output} {id : String} {i : Interaction}
    (h : (id, i) ∈ (Desk.of outputs).waiting) : ∃ l pid l', outputs = l ++ .asked pid id i :: l' ∧
      ∀ o ∈ l', ¬o.voids id := by
  induction outputs using List.reverseRecOn with
  | nil => cases h
  | append_singleton outputs o ih =>
    rw [Desk.of_concat] at h
    have old (hin : (id, i) ∈ (Desk.of outputs).waiting) (ho : ¬o.voids id) :
        ∃ l pid l', outputs ++ [o] = l ++ .asked pid id i :: l' ∧ ∀ o ∈ l', ¬o.voids id := by
      obtain ⟨l, pid, l', rfl, hl'⟩ := ih hin
      refine ⟨l, pid, l' ++ [o], by simp, fun o' ho' => ?_⟩
      rcases List.mem_append.1 ho' with ho' | ho'
      · exact hl' o' ho'
      · exact List.mem_singleton.1 ho' ▸ ho
    cases o with
    | spawned pid => cases h
    | closed pid => cases h
    | cleared => cases h
    | asked pid publicId j =>
      rcases List.mem_append.1 h with h | h
      · obtain ⟨hin, hne⟩ := List.mem_filter.1 h
        exact old hin fun heq => by simp [show publicId = id from heq] at hne
      · obtain ⟨rfl, rfl⟩ := Prod.mk.inj (List.mem_singleton.1 h)
        exact ⟨outputs, pid, [], rfl, fun o' ho' => absurd ho' List.not_mem_nil⟩
    | answered pid publicId j x =>
      obtain ⟨hin, hne⟩ := List.mem_filter.1 h
      exact old hin fun heq => by simp [show publicId = id from heq] at hne
    | wrote | committed | started | handed | replied => exact old h fun hv => hv

/-! ## The actor at its desk -/

/-- The actor did only what was allowed so far, its process has what waits, the native ids that the
process used are among `used`, and the user gave the decisions among `given`. The process may be known
to be `here`, and nothing to wait. -/
structure Tracked (used : List (ℕ × String)) (given : List (String × Decision))
    (here : Option (ℕ × (Interaction → Prop))) (idle : Bool) (w : Actor Agent) : Prop where
  orderly : Orderly w.outputs
  pid : (Desk.of w.outputs).pid = w.process.map (·.pid)
  waiting : (Desk.of w.outputs).waiting = (w.process.map (·.pending)).getD []
  valid : ∀ p, w.process = some p → p.adapter.Valid ∧ ∀ e ∈ p.pending, p.adapter.Fits e.2
  used : ∀ r, r ∈ (Desk.of w.outputs).asked ∨ r ∈ (Desk.of w.outputs).responded →
    ∃ pid, (Desk.of w.outputs).pid = some pid ∧ (pid, r) ∈ used
  given : ∀ pid publicId i x, .answered pid publicId i x ∈ w.outputs → (publicId, x) ∈ given
  here : ∀ n fits, here = some (n, fits) →
    ∃ p, w.process = some p ∧ p.pid = n ∧ p.adapter.Fits = fits
  idle : idle = true → (Desk.of w.outputs).waiting = []

namespace Tracked

variable {used used' : List (ℕ × String)} {given given' : List (String × Decision)}
  {here : Option (ℕ × (Interaction → Prop))} {idle : Bool} {w w' : Actor Agent} {o : Output}

theorem mono (h : Tracked used given here idle w) (hu : used ⊆ used') (hg : given ⊆ given') :
    Tracked used' given' none false w where
  orderly := h.orderly
  pid := h.pid
  waiting := h.waiting
  valid := h.valid
  used := fun r hr => (h.used r hr).imp fun _ hp => ⟨hp.1, hu hp.2⟩
  given := fun pid publicId i x hx => hg (h.given pid publicId i x hx)
  here := fun _ _ hn => nomatch hn
  idle := fun hi => nomatch hi

/-- Only the process, with its pending interactions, and the outputs are tracked. -/
theorem of_eq (h : Tracked used given here idle w) (ho : w'.outputs = w.outputs)
    (hp : ∀ p', w'.process = some p' → ∃ p, w.process = some p ∧ p'.pid = p.pid ∧
      p'.pending = p.pending ∧ (p.adapter.Valid → p'.adapter.Valid) ∧
      p'.adapter.Fits = p.adapter.Fits)
    (hn' : w'.process = none → w.process = none) : Tracked used given here idle w' := by
  have hpid : w'.process.map (·.pid) = w.process.map (·.pid) ∧
      w'.process.map (·.pending) = w.process.map (·.pending) := by
    rcases hw : w'.process with _ | p'
    · rw [hn' hw]
      exact ⟨rfl, rfl⟩
    · obtain ⟨p, hp, h₁, h₂, -⟩ := hp p' hw
      simp [hp, h₁, h₂]
  refine ⟨ho ▸ h.orderly, by rw [ho, hpid.1, h.pid], by rw [ho, hpid.2, h.waiting], fun p' hp' => ?_,
    by rw [ho]; exact h.used, by rw [ho]; exact h.given, fun n F hn => ?_,
    by rw [ho]; exact h.idle⟩
  · obtain ⟨p, hw, -, h₂, hv, hf⟩ := hp p' hp'
    obtain ⟨h₃, h₄⟩ := h.valid p hw
    exact ⟨hv h₃, fun e he => hf ▸ h₄ e (h₂ ▸ he)⟩
  · obtain ⟨q, hq, hqn, hqf⟩ := h.here n F hn
    rcases hw' : w'.process with _ | p'
    · rw [hn' hw'] at hq
      cases hq
    · obtain ⟨p, hw, h₁, -, -, hf⟩ := hp p' hw'
      obtain rfl := Option.some.inj (hq.symm.trans hw)
      exact ⟨p', rfl, h₁.trans hqn, hf.trans hqf⟩

theorem same (h : Tracked used given here idle w) (hp : w'.process = w.process)
    (ho : w'.outputs = w.outputs) : Tracked used given here idle w' :=
  h.of_eq ho (fun p' hp' => ⟨p', hp ▸ hp', rfl, rfl, id, rfl⟩) (hp ▸ id)

/-- An output that the desk keeps nothing of but that it happened. -/
theorem emit (h : Tracked used given here idle w) (ho : (Desk.of w.outputs).Allows o)
    (hd : (Desk.of w.outputs).after o = { Desk.of w.outputs with due := none })
    (hx : ∀ pid publicId i x, o ≠ .answered pid publicId i x) :
    Tracked used given here idle { w with outputs := w.outputs ++ [o] } where
  orderly := orderly_concat.2 ⟨h.orderly, ho⟩
  pid := by simp [hd, h.pid]
  waiting := by simp [hd, h.waiting]
  valid := h.valid
  used := by simpa [hd] using h.used
  given := by
    intro pid publicId i x hmem
    rcases List.mem_append.1 hmem with hmem | hmem
    · exact h.given pid publicId i x hmem
    · exact absurd (List.mem_singleton.1 hmem).symm (hx pid publicId i x)
  here := h.here
  idle := by simpa [hd] using h.idle

/-- A process that nobody asked anything of yet. -/
theorem begins (h : Tracked used given none idle w) {p : Process Agent} (hp : p.pending = [])
    (hv : p.adapter.Valid) {spawned : ℕ} {outside : Outside} :
    Tracked used given none idle { w with
      process := some p, spawned, outside, outputs := w.outputs ++ [.spawned p.pid] } where
  orderly := orderly_concat.2 ⟨h.orderly, trivial⟩
  pid := by simp [Desk.after]
  waiting := by simp [Desk.after, hp]
  valid := fun p' hp' => by
    obtain rfl := Option.some.inj hp'
    exact ⟨hv, fun e he => by simp [hp] at he⟩
  used := fun r hr => by simp [Desk.after] at hr
  given := fun pid publicId i x hmem => h.given pid publicId i x (by simpa using hmem)
  here := fun _ _ hn => nomatch hn
  idle := fun _ => by simp [Desk.after]

theorem ends (h : Tracked used given none idle w) {pid : ℕ} :
    Tracked used given none idle { w with process := none, outputs := w.outputs ++ [.closed pid] } where
  orderly := orderly_concat.2 ⟨h.orderly, trivial⟩
  pid := by simp [Desk.after]
  waiting := by simp [Desk.after]
  valid := fun p' hp' => nomatch hp'
  used := fun r hr => by simp [Desk.after] at hr
  given := fun pid publicId i x hmem => h.given pid publicId i x (by simpa using hmem)
  here := fun _ _ hn => nomatch hn
  idle := fun _ => by simp [Desk.after]

theorem cleared (h : Tracked used given here idle w) :
    Tracked used given here idle { w with
      process := w.process.map fun p => { p with pending := [] }
      outputs := w.outputs ++ [.cleared] } where
  orderly := orderly_concat.2 ⟨h.orderly, trivial⟩
  pid := by simp [Desk.after, h.pid, Function.comp_def]
  waiting := by cases hp : w.process <;> simp [Desk.after]
  valid := fun p' hp' => by
    obtain ⟨p, hp, rfl⟩ := Option.map_eq_some_iff.1 hp'
    exact ⟨(h.valid p hp).1, fun e he => absurd he List.not_mem_nil⟩
  used := by simpa [Desk.after] using h.used
  given := fun pid publicId i x hmem => h.given pid publicId i x (by simpa using hmem)
  here := fun n F hn => by
    obtain ⟨p, hp, hpf⟩ := h.here n F hn
    exact ⟨{ p with pending := [] }, by simp [hp], hpf⟩
  idle := fun _ => by simp [Desk.after]

/-- A new request of the process begins to wait. -/
theorem asks {pid : ℕ} {fits : Interaction → Prop} {p : Process Agent} {i : Interaction}
    {publicId : String} (h : Tracked used given (some (pid, fits)) idle w)
    (hp : w.process = some p) (hfew : p.pending.length < 32) (hnew : (pid, i.nativeId) ∉ used)
    (hi : fits i) :
    Tracked ((pid, i.nativeId) :: used) given none false { w with
      process := w.process.map fun p => { p with
        pending := p.pending.filter (·.1 ≠ publicId) ++ [(publicId, i)] }
      outputs := w.outputs ++ [.asked p.pid publicId i] } := by
  obtain ⟨q, hq, rfl, hfits⟩ := h.here _ _ rfl
  obtain rfl := Option.some.inj (hp.symm.trans hq)
  have hpid : (Desk.of w.outputs).pid = some p.pid := by rw [h.pid, hp]; rfl
  have hwait : (Desk.of w.outputs).waiting = p.pending := by rw [h.waiting, hp]; rfl
  have fresh : ∀ r, r ∈ (Desk.of w.outputs).asked ∨ r ∈ (Desk.of w.outputs).responded →
      r ≠ i.nativeId := by
    rintro r hr rfl
    obtain ⟨pid, hpid', hin⟩ := h.used _ hr
    obtain rfl := Option.some.inj (hpid.symm.trans hpid')
    exact hnew hin
  refine ⟨orderly_concat.2 ⟨h.orderly, hpid, hwait ▸ hfew, fun hin => fresh _ (.inl hin) rfl,
    fun hin => fresh _ (.inr hin) rfl⟩, ?_, ?_, ?_, ?_, ?_, fun _ _ hn => (nomatch hn),
    fun hn => (nomatch hn)⟩
  · simp [Desk.after, hpid, hp]
  · simp [Desk.after, hwait, hp]
  · intro p' hp'
    obtain ⟨q, hq, rfl⟩ := Option.map_eq_some_iff.1 hp'
    obtain rfl := Option.some.inj (hp.symm.trans hq)
    refine ⟨(h.valid p hp).1, fun e he => ?_⟩
    rcases List.mem_append.1 he with he | he
    · exact (h.valid p hp).2 e (List.mem_filter.1 he).1
    · obtain rfl := List.mem_singleton.1 he
      exact hfits ▸ hi
  · intro r hr
    simp only [Desk.of_concat, Desk.after, List.mem_cons, or_assoc] at hr ⊢
    rcases hr with rfl | hr
    · exact ⟨p.pid, hpid, .inl rfl⟩
    · obtain ⟨pid, h₁, h₂⟩ := h.used r hr
      exact ⟨pid, h₁, .inr h₂⟩
  · exact fun pid publicId i x hmem => h.given pid publicId i x (by simpa using hmem)

/-- What waits is decided. -/
theorem answers {p : Process Agent} {i : Interaction} {publicId : String} {x : Decision}
    (h : Tracked used given here idle w) (hp : w.process = some p)
    (hi : p.pending.lookup publicId = some i) (hx : ∃ input, x.Reaches i input) :
    Tracked used ((publicId, x) :: given) none false { w with
      process := w.process.map fun p => { p with pending := p.pending.filter (·.1 ≠ publicId) }
      outputs := w.outputs ++ [.answered p.pid publicId i x] } := by
  have hpid : (Desk.of w.outputs).pid = some p.pid := by rw [h.pid, hp]; rfl
  have hwait : (Desk.of w.outputs).waiting = p.pending := by rw [h.waiting, hp]; rfl
  refine ⟨orderly_concat.2 ⟨h.orderly, hpid, hwait ▸ hi, hx⟩, ?_, ?_, ?_, ?_, ?_,
    fun _ _ hn => (nomatch hn), fun hn => (nomatch hn)⟩
  · simp [Desk.after, hpid, hp]
  · simp [Desk.after, hwait, hp]
  · intro p' hp'
    obtain ⟨q, hq, rfl⟩ := Option.map_eq_some_iff.1 hp'
    obtain rfl := Option.some.inj (hp.symm.trans hq)
    exact ⟨(h.valid p hp).1, fun e he => (h.valid p hp).2 e (List.mem_filter.1 he).1⟩
  · simpa [Desk.after] using h.used
  · intro pid publicId' i' x' hmem
    rcases List.mem_append.1 hmem with hmem | hmem
    · exact List.mem_cons_of_mem _ (h.given pid publicId' i' x' hmem)
    · obtain ⟨-, rfl, -, rfl⟩ := Output.answered.inj (List.mem_singleton.1 hmem)
      exact List.mem_cons_self

/-- A response to a request that is new to the desk, or to the one that was decided just now. -/
theorem responds {frame : Json} {r : String} (h : Tracked used given here idle w)
    (hf : LatteWork.responds frame = some r)
    (hallow : (Desk.of w.outputs).Allows (.wrote frame))
    (hr : ∃ pid, (Desk.of w.outputs).pid = some pid ∧ (pid, r) ∈ used') (hu : used ⊆ used') :
    Tracked used' given none false { w with outputs := w.outputs ++ [.wrote frame] } where
  orderly := orderly_concat.2 ⟨h.orderly, hallow⟩
  pid := by simpa [Desk.after] using h.pid
  waiting := by simpa [Desk.after] using h.waiting
  valid := h.valid
  used := by
    intro r' hr'
    simp only [Desk.of_concat, Desk.after, hf, Option.toList_some, List.singleton_append,
      List.mem_cons] at hr' ⊢
    have old : r' ∈ (Desk.of w.outputs).asked ∨ r' ∈ (Desk.of w.outputs).responded →
        ∃ pid, (Desk.of w.outputs).pid = some pid ∧ (pid, r') ∈ used' := fun hold => by
      obtain ⟨pid, h₁, h₂⟩ := h.used r' hold
      exact ⟨pid, h₁, hu h₂⟩
    rcases hr' with hr' | rfl | hr'
    · exact old (.inl hr')
    · exact hr
    · exact old (.inr hr')
  given := fun pid publicId i x hmem => h.given pid publicId i x (by simpa using hmem)
  here := fun _ _ hn => nomatch hn
  idle := fun hn => nomatch hn

/-- A process with nothing pending has nothing that waits. -/
theorem atRest (h : Tracked used given here idle w)
    (hp : ∀ p, w.process = some p → p.pending = []) : Tracked used given here true w :=
  { h with
    idle := fun _ => by
      rw [h.waiting]
      rcases hw : w.process with _ | p
      · rfl
      · exact hp p hw }

end Tracked

namespace Act

/-- The agent of an actor's setting is one of this host. -/
def Hosted (ctx : Setting Agent) : Prop :=
  ∃ instructions uuid cwd, ctx.agent = Agent.adapter instructions uuid cwd

variable {ctx : Setting Agent} {used : List (ℕ × String)} {given : List (String × Decision)}
  {here : Option (ℕ × (Interaction → Prop))} {idle : Bool}

theorem Hosted.calm (h : Hosted ctx) : ctx.agent.Calm Quiet := by
  obtain ⟨_, _, _, h⟩ := h
  exact h ▸ Agent.adapter_calm

theorem Hosted.advance (h : Hosted ctx) (a : Agent) (input : Input) :
    ctx.agent.advance a input = a.advance input := by
  obtain ⟨_, _, _, h⟩ := h
  rw [h]
  rfl

theorem Hosted.create (h : Hosted ctx) {session : Session} {config : LaunchConfig} {a : Agent}
    (ha : ctx.agent.create session config = .ok a) : a.Valid := by
  obtain ⟨_, _, _, h⟩ := h
  rw [h] at ha
  exact Agent.create_valid ha

theorem setProcess_tracked {w : Actor Agent} {f : Process Agent → Process Agent}
    (h : Tracked used given here idle w)
    (hf : ∀ p, w.process = some p → (f p).pid = p.pid ∧ (f p).pending = p.pending ∧
      (p.adapter.Valid → (f p).adapter.Valid) ∧ (f p).adapter.Fits = p.adapter.Fits) :
    Tracked used given here idle { w with process := w.process.map f } := by
  refine h.of_eq rfl (fun p' hp' => ?_) fun hn => ?_
  · obtain ⟨p, hp, rfl⟩ := Option.map_eq_some_iff.1 hp'
    exact ⟨p, hp, hf p hp⟩
  · exact Option.map_eq_none_iff.1 hn

theorem advanced_tracked (h : Hosted ctx) {w : Actor Agent} (hw : Tracked used given here idle w)
    {p : Process Agent} (hp : w.process = some p) (input : Input) :
    Tracked used given here idle { w with process := w.process.map fun q =>
      { q with adapter := (ctx.agent.advance p.adapter input).2 } } := by
  refine setProcess_tracked hw fun q hq => ?_
  obtain rfl := Option.some.inj (hp.symm.trans hq)
  simp only [h.advance]
  exact ⟨trivial, trivial, fun hv => Agent.advance_valid hv _, Agent.advance_fits _ _⟩

theorem db_tracked {op : StoreOp} (hop : op.completes = true → idle = true) :
    Keeps (Tracked used given here idle) (db op) := fun w hw => by
  refine wp_bind.2 (wp_current.2 (wp_bind.2 (wp_lift.2 ⟨fun store _ => ?_, fun _ _ => hw⟩)))
  have hw' : Tracked used given here idle { w with store } := hw.same rfl rfl
  exact wp_bind.2 (hw'.emit (fun hc => hw'.idle (hop hc)) rfl (fun _ _ _ _ hn => nomatch hn))

theorem tracked_local (h : Hosted ctx) : Local ctx Quiet (Tracked used given here idle) where
  calm := h.calm
  book := fun f hf w hw => by
    obtain ⟨-, hp, -, ho⟩ := hf w
    exact hw.same hp ho
  plain := fun o ho w hw => by
    cases o with
    | started | handed | replied => exact hw.emit trivial rfl (fun _ _ _ _ hn => nomatch hn)
    | _ => cases ho
  wrote := fun frame hf w hw => by
    refine hw.emit (fun r hr => ?_) ?_ (fun _ _ _ _ hn => nomatch hn)
    · rw [show responds frame = none from hf] at hr
      cases hr
    · simp [Desk.after, show responds frame = none from hf]
  db := fun op ho => db_tracked fun hc => by simp [ho] at hc
  process := fun f hf w hw => setProcess_tracked hw fun p _ => by
    obtain ⟨h₁, h₂, h₃⟩ := hf p
    exact ⟨h₁, h₂, h₃ ▸ id, h₃ ▸ rfl⟩
  advance := fun input w hw => by
    refine wp_bind.2 (wp_bind.2 (wp_current.2 (wp_orError.2 ⟨fun p hp => ?_, fun _ => hw⟩)))
    have advanced := advanced_tracked h hw hp input
    exact wp_bind.2 (wp_update.2 (wp_lift.2 ⟨fun _ _ => advanced, fun _ _ => advanced⟩))
  clear := fun w hw => hw.cleared

theorem tracked_rules (h : Hosted ctx) : Rules ctx Quiet (Tracked used given none idle) where
  toLocal := tracked_local h
  spawn := fun config w hw => by
    refine wp_bind.2 (wp_bind.2 (wp_current.2 (wp_lift.2 ⟨fun session _ => ?_, fun _ _ => hw⟩)))
    refine wp_bind.2 (wp_lift.2 ⟨fun adapter ha => ?_, fun _ _ => hw⟩)
    refine wp_bind.2 (wp_mono ((tracked_local h).outcome _ _ w hw) (fun _ w' hw' => ?_)
      fun _ _ ht => ht)
    exact hw'.begins rfl (h.create ha)
  drop := fun w hw => by
    refine wp_bind.2 (wp_current.2 ?_)
    split
    · exact hw
    · exact wp_bind.2 hw.ends

/-! ## What the agent and the user do -/

theorem ask_leads (h : Hosted ctx) {pid : ℕ} {fits : Interaction → Prop} {config : LaunchConfig}
    {limit : String} {i : Interaction} {event : String → AgentEvent}
    (hnew : (pid, i.nativeId) ∉ used) (hi : fits i) :
    Leads (Tracked used given (some (pid, fits)) false)
      (Tracked ((pid, i.nativeId) :: used) given none false) (ask ctx config limit i event) := by
  intro w hw
  have R : Rules ctx Quiet (Tracked ((pid, i.nativeId) :: used) given none false) := tracked_rules h
  have old : Tracked ((pid, i.nativeId) :: used) given none false w :=
    hw.mono (List.subset_cons_self _ _) (List.Subset.refl _)
  refine wp_bind.2 (wp_bind.2 (wp_current.2 (wp_orError.2 ⟨fun p hp => ?_, fun _ => old⟩)))
  refine wp_bind.2 (wp_bailIf.2 ⟨fun _ => old, fun hfew => ?_⟩)
  refine wp_bind.2 (wp_bind.2 (wp_current.2 (wp_bind.2 (wp_update.2 (wp_pure.2 ?_)))))
  have hw' : Tracked used given (some (pid, fits)) false { w with
      outside := { w.outside with uuids := w.outside.uuids.tail } } := hw.same rfl rfl
  refine wp_bind.2 (wp_update.2 (wp_bind.2 (wp_update.2 ?_)))
  exact Keeps.bind (R.logEvent _ _) (fun _ => R.db _ rfl) _ (hw'.asks hp (by omega) hnew hi)

theorem endTurn_tracked (h : Hosted ctx) (status : Status) (message : Option String) :
    Keeps (Tracked used given none false) (endTurn ctx status message) := by
  intro w hw
  have R : Rules ctx Quiet (Tracked used given none true) := tracked_rules h
  refine wp_bind.2 (wp_bind.2 (wp_current.2 (wp_orError.2 ⟨fun p hp => ?_, fun _ => hw⟩)))
  refine wp_bind.2 (wp_bailIf.2 ⟨fun _ => hw, fun hrest => ?_⟩)
  have hw' : Tracked used given none true w := hw.atRest fun q hq => by
    obtain rfl := Option.some.inj (hp.symm.trans hq)
    exact not_not.1 hrest
  have hkeeps {m : Act Agent Unit} (hm : Keeps (Tracked used given none true) m) :
      wp m (fun _ => Tracked used given none false) (fun _ => Tracked used given none false) w :=
    wp_mono (hm w hw') (fun _ _ ht => ht.mono (List.Subset.refl _) (List.Subset.refl _))
      fun _ _ ht => ht.mono (List.Subset.refl _) (List.Subset.refl _)
  exact hkeeps <| Keeps.bind (R.process _ fun _ => ⟨rfl, rfl, rfl⟩) fun _ =>
    Keeps.bind (R.finishTurn _ _) fun _ => Keeps.bind (db_tracked fun _ => rfl) fun _ =>
    Keeps.bind (R.process _ fun _ => ⟨rfl, rfl, rfl⟩) fun _ => R.reply _ _

theorem settleDecision_tracked : Keeps (Tracked used given none false) (settleDecision ctx) := by
  intro w hw
  refine wp_bind.2 (wp_bind.2 (wp_current.2 (wp_orError.2 ⟨fun p hp => ?_, fun _ => hw⟩)))
  by_cases hrest : p.pending = []
  · have hw' : Tracked used given none true w := hw.atRest fun q hq => by
      obtain rfl := Option.some.inj (hp.symm.trans hq)
      exact hrest
    exact wp_mono (db_tracked (fun _ => rfl) w hw')
      (fun _ _ ht => ht.mono (List.Subset.refl _) (List.Subset.refl _))
      fun _ _ ht => ht.mono (List.Subset.refl _) (List.Subset.refl _)
  · exact db_tracked (by simp [StoreOp.completes, hrest]) w hw

/-- A request that is new to the desk is answered by the adapter itself. -/
theorem write_leads (h : Hosted ctx) {pid : ℕ} {fits : Interaction → Prop} {r : String}
    {frame : Json} (hnew : (pid, r) ∉ used) (hr : responds frame = some r) :
    Leads (Tracked used given (some (pid, fits)) false) (Tracked ((pid, r) :: used) given none false)
      (write frame) := by
  have L : Local ctx Quiet (Tracked used given (some (pid, fits)) false) := tracked_local h
  have old : ∀ w, Tracked used given (some (pid, fits)) false w →
      Tracked ((pid, r) :: used) given none false w :=
    fun w hw => hw.mono (List.subset_cons_self _ _) (List.Subset.refl _)
  refine Leads.bind (Keeps.bailIf _ _) (fun _ => Leads.bind (L.outcome _ _) (fun _ w hw => ?_) old) old
  obtain ⟨p, hp, rfl, -⟩ := hw.here _ _ rfl
  have hpid : (Desk.of w.outputs).pid = some p.pid := by rw [hw.pid, hp]; rfl
  have fresh : ∀ r', r' ∈ (Desk.of w.outputs).asked ∨ r' ∈ (Desk.of w.outputs).responded →
      r' ≠ r := by
    rintro r' hr' rfl
    obtain ⟨pid, hpid', hin⟩ := hw.used _ hr'
    obtain rfl := Option.some.inj (hpid.symm.trans hpid')
    exact hnew hin
  refine hw.responds hr (fun r' hr' => ?_) ⟨_, hpid, List.mem_cons_self⟩ (List.subset_cons_self _ _)
  obtain rfl := Option.some.inj (hr.symm.trans hr')
  exact ⟨by simp [hpid], fun hin => fresh _ (.inr hin) rfl,
    fun hin => absurd rfl (fresh _ (.inl hin))⟩

/-- What takes a request up is done. -/
theorem applyAction_leads (h : Hosted ctx) {pid : ℕ} {fits : Interaction → Prop} {r : String}
    {config : LaunchConfig} {action : Action} (hnew : (pid, r) ∉ used)
    (ha : action.TakesUp fits r) :
    Leads (Tracked used given (some (pid, fits)) false) (Tracked ((pid, r) :: used) given none false)
      (applyAction ctx config action) := by
  cases action with
  | approval id tool name input =>
    obtain ⟨rfl, hf⟩ := ha
    exact ask_leads h hnew hf
  | question id tool input questions =>
    obtain ⟨rfl, hf⟩ := ha
    exact ask_leads h hnew hf
  | write frame => exact write_leads h hnew ha
  | _ => cases ha

theorem applyActions_leads (h : Hosted ctx) {pid : ℕ} {fits : Interaction → Prop} {r : String}
    {config : LaunchConfig} {action : Action} (hnew : (pid, r) ∉ used) (ha : action.TakesUp fits r)
    {before : List Action} (hb : Muted before) :
    Leads (Tracked used given (some (pid, fits)) false) (Tracked ((pid, r) :: used) given none false)
      (applyActions ctx config (before ++ [action])) := by
  have L : Local ctx Quiet (Tracked used given (some (pid, fits)) false) := tracked_local h
  have old : ∀ w, Tracked used given (some (pid, fits)) false w →
      Tracked ((pid, r) :: used) given none false w :=
    fun w hw => hw.mono (List.subset_cons_self _ _) (List.Subset.refl _)
  induction before with
  | nil =>
    rw [List.nil_append]
    unfold applyActions
    split
    · exact Leads.of_keeps (Keeps.pure _) old
    · exact Leads.of_keeps (Keeps.pure _) old
    · rename_i heq
      obtain ⟨rfl, rfl⟩ := List.cons.inj heq
      exact Leads.keeps (applyAction_leads h hnew ha) fun _ => Keeps.pure _
  | cons b rest ih =>
    obtain ⟨hb, hrest⟩ := muted_cons.1 hb
    rw [List.cons_append]
    unfold applyActions
    split
    · exact Leads.of_keeps (Keeps.pure _) old
    · exact Leads.of_keeps (Keeps.pure _) old
    · rename_i heq
      obtain ⟨rfl, rfl⟩ := List.cons.inj heq
      exact Leads.bind (L.applyAction _ hb) (fun _ => ih hrest) old

/-- The answer to a line is done. -/
theorem applyLine_leads (h : Hosted ctx) {pid : ℕ} {fits : Interaction → Prop} {r : String}
    {actions : List Action} (hnew : (pid, r) ∉ used) (ht : TakenUp fits r actions) :
    Leads (Tracked used given (some (pid, fits)) false) (Tracked ((pid, r) :: used) given none false)
      (apply ctx actions) := by
  have L : Local ctx Quiet (Tracked used given (some (pid, fits)) false) := tracked_local h
  have old : ∀ w, Tracked used given (some (pid, fits)) false w →
      Tracked ((pid, r) :: used) given none false w :=
    fun w hw => hw.mono (List.subset_cons_self _ _) (List.Subset.refl _)
  refine L.apply (tracked_local h) old (fun config => ?_) (endTurn_tracked h)
  rcases ht with hm | ⟨before, action, rfl, hb, ha⟩
  · exact Leads.of_keeps (L.applyActions config fun a ha => hm a (List.mem_filter.1 ha).1) old
  · have htitle : action.isTitleRenamed = false := by cases action <;> first | rfl | cases ha
    rw [List.filter_append, List.filter_cons_of_pos (by simp [htitle]), List.filter_nil]
    exact applyActions_leads h hnew ha fun a ha => hb a (List.mem_filter.1 ha).1

/-- The request that a line of the process is. -/
def lineRequest (w : Actor Agent) (line : Option Json) : Option (ℕ × String) :=
  w.process.bind fun p => (line.bind p.adapter.request).map (p.pid, ·)

/-- A line of the agent: a request of it is not one that the process used before. -/
theorem line_tracked (h : Hosted ctx) {line : Option Json} {w : Actor Agent}
    (hw : Tracked used given none false w) (hnew : ∀ e ∈ lineRequest w line, e ∉ used) :
    wp (output ctx (.line line))
      (fun _ => Tracked ((lineRequest w line).toList ++ used) given none false)
      (fun _ => Tracked ((lineRequest w line).toList ++ used) given none false) w := by
  have R : Rules ctx Quiet (Tracked ((lineRequest w line).toList ++ used) given none false) :=
    tracked_rules h
  have old : Tracked ((lineRequest w line).toList ++ used) given none false w :=
    hw.mono (List.subset_append_right _ _) (List.Subset.refl _)
  refine wp_bind.2 (wp_bind.2 (wp_bind.2 (wp_current.2 (wp_orError.2 ⟨fun p hp => ?_, fun _ => old⟩))))
  have heard : Tracked used given (some (p.pid, p.adapter.Fits)) false { w with
      process := w.process.map fun q =>
        { q with adapter := (ctx.agent.advance p.adapter (.message line)).2 } } := by
    refine { advanced_tracked h hw hp _ with here := fun n fits hn => ?_ }
    obtain ⟨rfl, rfl⟩ := Prod.mk.inj (Option.some.inj hn)
    simp only [hp, Option.map_some, h.advance]
    exact ⟨_, rfl, rfl, Agent.advance_fits _ _⟩
  refine wp_bind.2 (wp_update.2 (wp_lift.2 ⟨fun actions ha => ?_, fun _ _ =>
    heard.mono (List.subset_append_right _ _) (List.Subset.refl _)⟩))
  rw [h.advance] at ha
  have hspoken := Agent.advance_message (hw.valid p hp).1 ha
  have hrequest : lineRequest w line = (line.bind p.adapter.request).map (p.pid, ·) := by
    simp [lineRequest, hp]
  refine wp_bind.2 (wp_mono (?_ : wp (apply ctx actions) (fun _ => Tracked _ given none false)
    (fun _ => Tracked _ given none false) _) (fun _ t ht => wp_update.2 (ht.same rfl rfl)) fun _ _ ht => ht)
  rcases hr : line.bind p.adapter.request with _ | r <;> rw [hr] at hspoken hrequest
  · have heard' := heard.mono (List.subset_append_right (lineRequest w line).toList used)
      (List.Subset.refl _)
    exact R.apply R.toLocal (fun _ => id) (fun config => R.applyActions config fun a ha =>
      hspoken a (List.mem_filter.1 ha).1) (endTurn_tracked h) _ heard'
  · have hnew' : (p.pid, r) ∉ used := hnew _ (by simp [hrequest])
    have hlist : (lineRequest w line).toList ++ used = (p.pid, r) :: used := by simp [hrequest]
    rw [hlist]
    exact applyLine_leads h hnew' hspoken _ heard

/-! ### Decisions -/

/-- The frame that a decision is put as goes out: the desk allows it while the decision is due. -/
theorem write_due {i : Interaction} {x : Decision} {frame : Json}
    (hr : responds frame = some i.nativeId) (hx : x.WrittenAs i frame) :
    Leads (fun w => Tracked used given none false w ∧ (Desk.of w.outputs).due = some (i, x))
      (Tracked used given none false) (write frame) := by
  refine Leads.bind (Keeps.bailIf _ _) (fun _ => Leads.bind ?_ (fun _ w hw => ?_) fun _ hw => hw.1)
    fun _ hw => hw.1
  · refine Keeps.current.bind fun w => Keeps.bind (Keeps.update fun w hw =>
      ⟨hw.1.same rfl rfl, hw.2⟩) fun _ => ?_
    split
    · exact Keeps.pure ()
    · exact Keeps.fail _
  · obtain ⟨ht, hdue⟩ := hw
    obtain ⟨hasked, hopen, -⟩ := ht.orderly.sound.due i x hdue
    obtain ⟨pid, hpid, hused⟩ := ht.used _ (.inl hasked)
    refine ht.responds hr (fun r hr' => ?_) ⟨pid, hpid, hused⟩ (List.Subset.refl _)
    obtain rfl := Option.some.inj (hr.symm.trans hr')
    exact ⟨by simp [hpid], hopen, fun _ => ⟨i, x, hdue, rfl, hx⟩⟩

theorem applyFrame_due (h : Hosted ctx) {i : Interaction} {x : Decision} {frame : Json}
    (hr : responds frame = some i.nativeId) (hx : x.WrittenAs i frame) :
    Leads (fun w => Tracked used given none false w ∧ (Desk.of w.outputs).due = some (i, x))
      (Tracked used given none false) (apply ctx [.write frame]) := by
  have R : Rules ctx Quiet (Tracked used given none false) := tracked_rules h
  refine Leads.bind (Keeps.pure ()) (fun _ => Leads.bind (Keeps.current.bind fun _ =>
    Keeps.orError _ _) (fun p => Leads.bind (Keeps.update fun w hw => ⟨?_, hw.2⟩) (fun _ =>
    Leads.bind (Keeps.when_false (by simp [Action.isTitleRenamed, Action.isInterrupted, Action.isFinished]))
    (fun _ => Leads.keeps (Leads.keeps (write_due hr hx) fun _ => Keeps.pure _) fun outcome =>
    Keeps.bind ?_ fun _ => R.interruptReady) fun _ hw => hw.1) fun _ hw => hw.1) fun _ hw => hw.1)
    fun _ hw => hw.1
  · exact setProcess_tracked hw.1 fun _ _ => ⟨rfl, rfl, id, rfl⟩
  · unfold endTurnOf
    split
    · exact Keeps.pure ()
    · exact endTurn_tracked h _ _

theorem respond_tracked (h : Hosted ctx) {w : Actor Agent} {id e : String} {x : Decision}
    {input : Interaction → Except String Input} {resolved : Process Agent → Act Agent Unit}
    (hw : Tracked used given none false w) (hx : (id, x) ∈ given)
    (hinput : ∀ p i, w.process = some p → p.pending.lookup id = some i →
      ∃ a, input i = .ok a ∧ x.Reaches i a)
    (hresolved : ∀ p, Keeps (Tracked used given none false) (resolved p)) :
    wp (respond ctx id e x input resolved) (fun _ => Tracked used given none false)
      (fun _ => Tracked used given none false) w := by
  have R : Rules ctx Quiet (Tracked used given none false) := tracked_rules h
  refine wp_bind.2 (wp_bind.2 (wp_bind.2 (wp_current.2 (wp_orError.2 ⟨fun p hp => ?_, fun _ => hw⟩))))
  refine wp_bind.2 (wp_orError.2 ⟨fun i hi => ?_, fun _ => hw⟩)
  refine wp_bind.2 (wp_update.2 (wp_bind.2 (wp_update.2 (wp_pure.2 ?_))))
  obtain ⟨a, ha, hreach⟩ := hinput p i hp hi
  have taken := (hw.answers hp hi ⟨a, hreach⟩).mono (List.Subset.refl _)
    (List.cons_subset.2 ⟨hx, List.Subset.refl given⟩)
  refine wp_bind.2 (wp_lift.2 ⟨fun a' ha' => ?_, fun _ _ => taken⟩)
  obtain rfl := Except.ok.inj (ha.symm.trans ha')
  refine wp_bind.2 (wp_bind.2 (wp_bind.2 (wp_current.2 (wp_orError.2 ⟨fun q hq => ?_, fun _ => taken⟩))))
  have hadapter : q.adapter = p.adapter := by
    obtain ⟨p', hp', rfl⟩ := Option.map_eq_some_iff.1 hq
    rw [Option.some.inj (hp'.symm.trans hp)]
  have advanced := advanced_tracked h taken hq a
  refine wp_bind.2 (wp_update.2 (wp_lift.2 ⟨fun actions hactions => ?_, fun _ _ => advanced⟩))
  rw [h.advance, hadapter] at hactions
  obtain ⟨frame, rfl, hframe⟩ := Agent.advance_decision (hw.valid p hp).1
    ((hw.valid p hp).2 _ (Assoc.mem_of_lookup hi)) hreach hactions
  refine wp_bind.2 (wp_mono (applyFrame_due h hframe ⟨p.adapter, a, hreach, hactions⟩ _
    ⟨advanced, by simp [Desk.after]⟩) (fun _ t ht => ?_) fun _ _ ht => ht)
  exact Keeps.bind (R.theProcess _) (fun q => Keeps.bind (hresolved q) fun _ =>
    settleDecision_tracked) t ht

theorem approval_tracked (h : Hosted ctx) {w : Actor Agent} {id : String} {allow : Bool}
    {waiter : ℕ} (hw : Tracked used given none false w) (hx : (id, .allow allow) ∈ given) :
    wp (approval ctx id allow waiter) (fun _ => Tracked used given none false)
      (fun _ => Tracked used given none false) w := by
  have R : Rules ctx Quiet (Tracked used given none false) := tracked_rules h
  refine wp_bind.2 (wp_current.2 (wp_ite.2 ⟨fun hc => ?_, fun _ => R.reply _ _ w hw⟩))
  refine wp_bind.2 (wp_attempt.2 (wp_mono (respond_tracked h hw hx (fun p i hp hi => ?_)
    fun _ => R.db _ rfl) (fun _ t ht => ?_) fun _ t ht => ?_))
  · refine ⟨_, rfl, ?_, rfl⟩
    rw [hp, Option.bind_some, hi] at hc
    simpa using hc
  · exact Keeps.bind (R.reply _ _) (fun _ => Keeps.lift _) t ht
  · exact Keeps.bind (R.reply _ _) (fun _ => Keeps.lift _) t ht

theorem answerQuestion_tracked (h : Hosted ctx) {w : Actor Agent} {id : String}
    {answers : Option (List QuestionAnswer)} {waiter : ℕ} (hw : Tracked used given none false w)
    (hx : (id, .answers answers) ∈ given) :
    wp (answerQuestion ctx id answers waiter) (fun _ => Tracked used given none false)
      (fun _ => Tracked used given none false) w := by
  have R : Rules ctx Quiet (Tracked used given none false) := tracked_rules h
  refine wp_bind.2 (wp_current.2 ?_)
  split
  · exact R.reply _ _ w hw
  · rename_i hc
    refine wp_bind.2 (wp_attempt.2 (wp_mono (respond_tracked h hw hx (fun p i hp hi => ?_)
      fun _ => R.logEvent _ _) (fun _ t ht => ?_) fun _ t ht => ?_))
    · obtain ⟨questions, hq, -⟩ := Fallible.bind_eq_ok.1 hc
      rw [Fallible.orError_eq_ok, hp, Option.bind_some, hi, Option.bind_some] at hq
      exact ⟨_, by rw [hq]; rfl, questions, hq, rfl⟩
    · exact Keeps.bind (R.reply _ _) (fun _ => Keeps.lift _) t ht
    · exact Keeps.bind (R.reply _ _) (fun _ => Keeps.lift _) t ht


/-! ### Runs -/

end Act

/-- The request that an event brings, with the process it comes from. -/
def Wake.request (w : Actor Agent) : Wake → Option (ℕ × String)
  | .output (.line line) => Act.lineRequest w line
  | _ => none

/-- The decision that an event brings, with the public id it is about. -/
def Wake.decision : Wake → Option (String × Decision)
  | .control (.approval id allow _) => some (id, .allow allow)
  | .control (.answerQuestion id answers _) => some (id, .answers answers)
  | _ => none

/-- The requests that the processes of an actor make, event by event. -/
def requests (ctx : Setting Agent) : ActorLife Agent → List Occasion → List (ℕ × String)
  | _, [] => []
  | l, o :: rest => (o.wake.request l.actor).toList ++ requests ctx (l.next ctx o) rest

namespace Act

theorem turn_tracked (h : Hosted ctx) {w : Actor Agent} {wake : Wake}
    (hw : Tracked used given none false w) (hnew : ∀ e ∈ wake.request w, e ∉ used) :
    wp (turn ctx wake)
      (fun _ => Tracked ((wake.request w).toList ++ used) (wake.decision.toList ++ given) none false)
      (fun _ => Tracked ((wake.request w).toList ++ used) (wake.decision.toList ++ given) none false)
      w := by
  have hw' := hw.mono (List.subset_append_right (wake.request w).toList used)
    (List.subset_append_right wake.decision.toList given)
  refine (tracked_rules h).turn hw' ?_
  cases hs : wake.speaks
  · exact (tracked_rules h).handle hs w hw'
  · cases wake with
    | output o =>
      cases o with
      | line line => exact line_tracked h hw hnew
      | _ => cases hs
    | control c =>
      cases c with
      | approval id allow waiter => exact approval_tracked h hw' List.mem_cons_self
      | answerQuestion id answers waiter => exact answerQuestion_tracked h hw' List.mem_cons_self
      | _ => cases hs
    | _ => cases hs

theorem next_tracked (h : Hosted ctx) {l : ActorLife Agent} {o : Occasion}
    (hl : Tracked used given none false l.actor) (hnew : ∀ e ∈ o.wake.request l.actor, e ∉ used) :
    Tracked ((o.wake.request l.actor).toList ++ used) (o.wake.decision.toList ++ given) none false
      (l.next ctx o).actor := by
  unfold ActorLife.next
  split_ifs with hend
  · exact hl.mono (List.subset_append_right _ _) (List.subset_append_right _ _)
  · have hat : Tracked used given none false (l.actor.at o) := hl.same rfl rfl
    have hw := @turn_tracked _ _ _ h _ o.wake hat hnew
    split
    all_goals
      rename_i heq
      have := wp_run hw heq
    · exact this.1 _ rfl
    · rename_i x w' hx
      rcases x with e | b
      · exact this.2 _ rfl
      · exact this.1 _ rfl

theorem run_tracked (h : Hosted ctx) : ∀ (occasions : List Occasion) {l : ActorLife Agent}
    {used : List (ℕ × String)} {given : List (String × Decision)},
    Tracked used given none false l.actor → (requests ctx l occasions).Nodup →
    (∀ e ∈ requests ctx l occasions, e ∉ used) →
    ∃ used', Tracked used' ((occasions.filterMap (·.wake.decision)) ++ given) none false
      (Runs.run (ActorLife.next ctx) l occasions).actor
  | [], l, used, given, hl, _, _ => ⟨used, hl⟩
  | o :: rest, l, used, given, hl, hnodup, hnew => by
    obtain ⟨hhead, hrest, hapart⟩ := List.nodup_append.1 hnodup
    have hnext := next_tracked h hl fun e he => hnew e (List.mem_append_left _ (Option.mem_toList.2 he))
    obtain ⟨used', ht⟩ := run_tracked h rest hnext hrest fun e he hin => by
      rcases List.mem_append.1 hin with hin | hin
      · exact hapart e hin e he rfl
      · exact hnew e (List.mem_append_right _ he) hin
    refine ⟨used', ht.mono (List.Subset.refl _) fun e he => ?_⟩
    cases hd : o.wake.decision <;> rw [hd] at he <;> simp_all [or_assoc, or_comm]

/-! ### What is refused -/

/-- Nothing was asked under an id that is still open. -/
def Void (outputs : List Output) (id : String) : Prop :=
  ∀ l pid i l', outputs = l ++ .asked pid id i :: l' → ∃ o ∈ l', o.voids id

theorem pending_void {w : Actor Agent} {id : String} (hw : Tracked used given here idle w)
    (hv : Void w.outputs id) : (w.process.bind fun p => p.pending.lookup id) = none := by
  rcases hp : w.process with _ | p
  · rfl
  · rw [Option.bind_some]
    rcases hi : p.pending.lookup id with _ | i
    · rfl
    · have hin : (id, i) ∈ (Desk.of w.outputs).waiting := by
        rw [hw.waiting, hp]
        exact Assoc.mem_of_lookup hi
      obtain ⟨l, pid, l', heq, hl'⟩ := Desk.origin hin
      obtain ⟨o, ho, hvoid⟩ := hv l pid i l' heq
      exact absurd hvoid (hl' o ho)

theorem approval_refused {w : Actor Agent} {id : String} (hw : Tracked used given here idle w)
    (hv : Void w.outputs id) (allow : Bool) (waiter : ℕ) :
    (approval ctx id allow waiter).run w = (.ok (), { w with outputs := w.outputs ++
      [.replied waiter (.error "审批已过期或不属于当前执行")] }) := by
  unfold approval
  rw [run_current_bind, pending_void hw hv]
  rfl

theorem answerQuestion_refused {w : Actor Agent} {id : String}
    (hw : Tracked used given here idle w) (hv : Void w.outputs id)
    (answers : Option (List QuestionAnswer)) (waiter : ℕ) :
    (answerQuestion ctx id answers waiter).run w = (.ok (), { w with outputs := w.outputs ++
      [.replied waiter (.error "问题已过期或不属于当前执行")] }) := by
  unfold answerQuestion
  rw [run_current_bind, checkAnswers, pending_void hw hv]
  rfl

end Act

/-- The setting of an actor on a host with its agents. -/
def Agent.setting (svc : Services) (fromValue : Json → Option AgentEvent)
    (instructions uuid cwd session : String) : Setting Agent where
  svc := svc
  fromValue := fromValue
  agent := Agent.adapter instructions uuid cwd
  session := session

/-- The actor after some events, from its start. -/
def ActorLife.after {α : Type} (ctx : Setting α) (store : Store) (outside : Outside)
    (occasions : List Occasion) : Actor α :=
  (Runs.run (ActorLife.next ctx) { actor := { store, outside } } occasions).actor

/-- Questions and approvals are answered at most once, with what the user decided about that very
request, as long as no process uses the id of a request twice. -/
theorem interactions_answered_once (svc : Services) (fromValue : Json → Option AgentEvent)
    (instructions uuid cwd session : String) (store : Store) (outside : Outside)
    (occasions : List Occasion)
    (hfresh : (requests (Agent.setting svc fromValue instructions uuid cwd session)
      { actor := { store, outside } } occasions).Nodup) :
    let ctx := Agent.setting svc fromValue instructions uuid cwd session
    let w := ActorLife.after ctx store outside occasions
    AnsweredOnce w.outputs ∧ Orderly w.outputs ∧
      (∀ pid publicId i x, .answered pid publicId i x ∈ w.outputs →
        ∃ o ∈ occasions, o.wake.decision = some (publicId, x)) ∧
      (∀ p, w.process = some p → p.pending = (Desk.of w.outputs).waiting ∧ p.pending.length ≤ 32) ∧
      ∀ id waiter, Act.Void w.outputs id →
        (∀ allow, (Act.approval ctx id allow waiter).run w = (.ok (), { w with outputs :=
          w.outputs ++ [.replied waiter (.error "审批已过期或不属于当前执行")] })) ∧
        ∀ answers, (Act.answerQuestion ctx id answers waiter).run w = (.ok (), { w with outputs :=
          w.outputs ++ [.replied waiter (.error "问题已过期或不属于当前执行")] }) := by
  intro ctx w
  have hosted : Act.Hosted ctx := ⟨instructions, uuid, cwd, rfl⟩
  have start : Tracked [] [] none false ({ store, outside } : Actor Agent) :=
    ⟨orderly_nil, rfl, rfl, fun _ hp => (nomatch hp), fun _ hr => by simp [Desk.of] at hr,
      fun _ _ _ _ hx => absurd hx List.not_mem_nil, fun _ _ hn => (nomatch hn), fun hn => (nomatch hn)⟩
  obtain ⟨used, hw⟩ := Act.run_tracked hosted occasions start hfresh
    fun _ _ hin => absurd hin List.not_mem_nil
  replace hw : Tracked used (occasions.filterMap (·.wake.decision)) none false w := by
    rwa [List.append_nil] at hw
  refine ⟨hw.orderly.answeredOnce, hw.orderly, fun pid publicId i x hx => ?_, fun p hp => ?_,
    fun id waiter hv => ⟨fun allow => Act.approval_refused hw hv allow waiter,
      fun answers => Act.answerQuestion_refused hw hv answers waiter⟩⟩
  · obtain ⟨o, ho, hd⟩ := List.mem_filterMap.1 (hw.given pid publicId i x hx)
    exact ⟨o, ho, hd⟩
  · have hwait : (Desk.of w.outputs).waiting = p.pending := by
      rw [hw.waiting, show w.process = some p from hp]
      rfl
    exact ⟨hwait.symm, hwait ▸ hw.orderly.sound.few⟩

/-! ## A request id that is used twice -/

/-- What an output says of processes and of the requests they answer. -/
def Output.mark : Output → Option (ℕ ⊕ String)
  | .spawned pid => some (.inl pid)
  | .wrote frame => (responds frame).map .inr
  | _ => none

theorem mark_response {o : Output} {r : String} (h : o.mark = some (.inr r)) :
    ∃ frame, o = .wrote frame ∧ responds frame = some r := by
  cases o with
  | wrote frame =>
    obtain ⟨r', hr, hs⟩ := Option.map_eq_some_iff.1 h
    obtain rfl := Sum.inr.inj hs
    exact ⟨frame, rfl, hr⟩
  | spawned pid => cases Option.some.inj h
  | _ => cases h

theorem answered_twice {outputs : List Output} {n : ℕ} {r : String}
    (h : outputs.filterMap Output.mark = [.inl n, .inr r, .inr r]) : ¬AnsweredOnce outputs := by
  intro hone
  obtain ⟨l₀, o₀, l, rfl, -, -, h⟩ := List.filterMap_eq_cons_iff.1 h
  obtain ⟨l₁, o₁, l, rfl, -, h₁, h⟩ := List.filterMap_eq_cons_iff.1 h
  obtain ⟨l₂, o₂, l, rfl, hnone, h₂, -⟩ := List.filterMap_eq_cons_iff.1 h
  obtain ⟨f₁, rfl, hf₁⟩ := mark_response h₁
  obtain ⟨f₂, rfl, hf₂⟩ := mark_response h₂
  obtain ⟨pid, hpid⟩ := hone (l₀ ++ o₀ :: l₁) f₁ l₂ f₂ l r (by simp) hf₁ hf₂
  cases hnone _ hpid

/-- The value of an approval event, read back. -/
def approvalOf (v : Json) : Option AgentEvent := do
  let requestId ← (v.index "request_id").str?
  let tool ← (v.index "tool").str?
  return { event := .approval requestId none tool (v.index "input") }

/-- A host whose agent asks for approvals. -/
def approvalSetting : Setting Agent :=
  Agent.setting ⟨fun _ => "", fun _ => none, fun _ => none, fun _ => .error ""⟩ approvalOf "" "" "" "s"

def claudeStore : Store where
  sessions := [{ id := "s", projectId := "p", title := "t", agent := "claude", status := .completed,
                 createdAt := 0 }]

def claudeReady : Json := .obj [("type", .str "control_response"), ("response",
  .obj [("subtype", .str "success"), ("request_id", .str "latte-init"),
    ("response", .obj [("commands", .arr [])])])]

def toolRequest (id command : String) : Json := .obj [("type", .str "control_request"),
  ("request_id", .str id), ("request", .obj [("subtype", .str "can_use_tool"),
    ("tool_name", .str "Bash"), ("input", .obj [("command", .str command)])])]

def claudeEvent (wake : Wake) (uuids : List String) : Occasion where
  wake := wake
  outside := { now := 0, uuids }
  store := claudeStore

/-- Two commands that wait for approval under the native ids given; the first is allowed and the
second is not. -/
def twoApprovals (first second : String) : List Occasion :=
  [claudeEvent (.control (.open {} 0)) [],
    claudeEvent (.output (.line (some claudeReady))) [],
    claudeEvent (.output (.line (some (toolRequest first "ls")))) ["one"],
    claudeEvent (.output (.line (some (toolRequest second "rm")))) ["two"],
    claudeEvent (.control (.approval "one" true 1)) [],
    claudeEvent (.control (.approval "two" false 2)) []]

/-- One native id is allowed and denied. -/
theorem interactions_answered_once_repeated :
    ¬AnsweredOnce
      (ActorLife.after approvalSetting claudeStore { now := 0 } (twoApprovals "r" "r")).outputs :=
  @answered_twice _ 0 "r" (by decide +kernel)

theorem interactions_answered_once_distinct :
    AnsweredOnce
      (ActorLife.after approvalSetting claudeStore { now := 0 } (twoApprovals "q" "r")).outputs :=
  (interactions_answered_once ⟨fun _ => "", fun _ => none, fun _ => none, fun _ => .error ""⟩
    approvalOf "" "" "" "s" claudeStore { now := 0 } (twoApprovals "q" "r") (by decide +kernel)).1

end LatteWork
