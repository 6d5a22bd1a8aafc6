import LatteWork.Lib.Fallible

/-!
# Programs that keep what they did

A program over a state that may fail. What it did before it failed stays done: a failure has a
state too. `wp` is what must hold before a program for its two kinds of end to be as asked; its
equations run a program in a proof, and `wp_mono` brings in what was proved of a part.
-/

/-- A program over states `σ` with errors `ε`. -/
def Prog (σ ε α : Type) : Type := σ → Except ε α × σ

namespace Prog

variable {σ ε α β : Type}

def run (m : Prog σ ε α) (s : σ) : Except ε α × σ := m s

instance : Monad (Prog σ ε) where
  pure a := fun s => (.ok a, s)
  bind m f := fun s => match m s with
    | (.ok a, t) => f a t
    | (.error e, t) => (.error e, t)

def current : Prog σ ε σ := fun s => (.ok s, s)

def update (f : σ → σ) : Prog σ ε Unit := fun s => (.ok (), f s)

def fail (e : ε) : Prog σ ε α := fun s => (.error e, s)

/-- A computation that does not look at the state. -/
def lift (x : Except ε α) : Prog σ ε α := fun s => (x, s)

/-- The outcome of a program, as a value. -/
def attempt (m : Prog σ ε α) : Prog σ ε (Except ε α) := fun s =>
  let (x, t) := m s
  (.ok x, t)

/-- A program, and what is done when it fails. -/
def rescue (m : Prog σ ε Unit) (h : ε → Prog σ ε Unit) : Prog σ ε Unit := fun s =>
  match m s with
  | (.ok (), t) => (.ok (), t)
  | (.error e, t) => h e t

/-- Fail when a condition holds. -/
def bailIf (c : Prop) [Decidable c] (e : ε) : Prog σ ε Unit := if c then fail e else pure ()

/-- The value of an option, or an error. -/
def orError (e : ε) (o : Option α) : Prog σ ε α :=
  match o with
  | some a => pure a
  | none => fail e

/-- A program under a condition. -/
def when (c : Prop) [Decidable c] (m : Prog σ ε Unit) : Prog σ ε Unit := if c then m else pure ()

/-- A program for each element, in order. -/
def forEach (f : α → Prog σ ε Unit) : List α → Prog σ ε Unit
  | [] => pure ()
  | a :: rest => do
    f a
    forEach f rest

/-- The outputs of a program for each element, in order. -/
def gather (f : α → Prog σ ε (List β)) : List α → Prog σ ε (List β)
  | [] => pure []
  | a :: rest => do
    let out ← f a
    let more ← gather f rest
    pure (out ++ more)

theorem run_current_bind {f : σ → Prog σ ε α} {s : σ} : (current >>= f).run s = (f s).run s := rfl

/-- Every run of `m` from `s` that returns ends in `Q`, and one that fails in `E`. -/
def wp (m : Prog σ ε α) (Q : α → σ → Prop) (E : ε → σ → Prop) (s : σ) : Prop :=
  match m s with
  | (.ok a, t) => Q a t
  | (.error e, t) => E e t

section

variable {Q : α → σ → Prop} {E : ε → σ → Prop} {s : σ}

@[simp]
theorem wp_pure {a : α} : wp (pure a : Prog σ ε α) Q E s ↔ Q a s := Iff.rfl

@[simp]
theorem wp_bind {m : Prog σ ε β} {f : β → Prog σ ε α} :
    wp (m >>= f) Q E s ↔ wp m (fun b t => wp (f b) Q E t) E s := by
  show (match (match m s with | (.ok a, t) => f a t | (.error e, t) => (.error e, t) :
    Except ε α × σ) with | (.ok a, t) => Q a t | (.error e, t) => E e t) ↔ _
  simp only [wp]
  rcases m s with ⟨_ | _, t⟩ <;> rfl

@[simp]
theorem wp_current {Q : σ → σ → Prop} : wp (current : Prog σ ε σ) Q E s ↔ Q s s := Iff.rfl

@[simp]
theorem wp_update {Q : Unit → σ → Prop} {f : σ → σ} :
    wp (update f : Prog σ ε Unit) Q E s ↔ Q () (f s) := Iff.rfl

@[simp]
theorem wp_fail {e : ε} : wp (fail e : Prog σ ε α) Q E s ↔ E e s := Iff.rfl

theorem wp_lift {x : Except ε α} :
    wp (lift x : Prog σ ε α) Q E s ↔ (∀ a, x = .ok a → Q a s) ∧ ∀ e, x = .error e → E e s := by
  rcases x with e | a <;> simp [wp, lift]

@[simp]
theorem wp_attempt {m : Prog σ ε β} {Q : Except ε β → σ → Prop} :
    wp (attempt m) Q E s ↔ wp m (fun b => Q (.ok b)) (fun e => Q (.error e)) s := by
  simp only [wp, attempt]
  rcases m s with ⟨_ | _, t⟩ <;> rfl

@[simp]
theorem wp_rescue {m : Prog σ ε Unit} {h : ε → Prog σ ε Unit} {Q : Unit → σ → Prop} :
    wp (rescue m h) Q E s ↔ wp m Q (fun e => wp (h e) Q E) s := by
  simp only [wp, rescue]
  rcases m s with ⟨_ | _, t⟩ <;> rfl

@[simp]
theorem wp_bailIf {Q : Unit → σ → Prop} {c : Prop} [Decidable c] {e : ε} :
    wp (bailIf c e : Prog σ ε Unit) Q E s ↔ (c → E e s) ∧ (¬c → Q () s) := by
  unfold bailIf
  by_cases h : c <;> simp [h]

@[simp]
theorem wp_orError {o : Option α} {e : ε} :
    wp (orError e o : Prog σ ε α) Q E s ↔ (∀ a, o = some a → Q a s) ∧ (o = none → E e s) := by
  rcases o with _ | a <;> simp [orError]

theorem wp_ite {c : Prop} [Decidable c] {m n : Prog σ ε α} :
    wp (if c then m else n) Q E s ↔ (c → wp m Q E s) ∧ (¬c → wp n Q E s) := by
  by_cases h : c <;> simp [h]

theorem wp_mono {m : Prog σ ε α} {Q' : α → σ → Prop} {E' : ε → σ → Prop} (h : wp m Q E s)
    (hQ : ∀ a t, Q a t → Q' a t) (hE : ∀ e t, E e t → E' e t) : wp m Q' E' s := by
  unfold wp at h ⊢
  revert h
  rcases m s with ⟨_ | _, t⟩ <;> intro h
  · exact hE _ _ h
  · exact hQ _ _ h

/-- What holds at both kinds of end holds of the state a run ends in. -/
theorem state_of_wp {m : Prog σ ε α} {P : σ → Prop} (h : wp m (fun _ t => P t) (fun _ t => P t) s) :
    P (m.run s).2 := by
  unfold wp at h
  unfold run
  revert h
  rcases m s with ⟨_ | _, t⟩ <;> exact id

/-- Two things that were proved of one program. -/
theorem wp_and {m : Prog σ ε α} {Q' : α → σ → Prop} {E' : ε → σ → Prop} (h : wp m Q E s)
    (h' : wp m Q' E' s) : wp m (fun a t => Q a t ∧ Q' a t) (fun e t => E e t ∧ E' e t) s := by
  unfold wp at h h' ⊢
  revert h h'
  rcases m s with ⟨_ | _, t⟩ <;> exact And.intro

/-- A loop, by what holds before it is done with the rest of the list. -/
theorem wp_forEach {f : α → Prog σ ε Unit} {I : List α → σ → Prop}
    (hstep : ∀ a rest s, I (a :: rest) s → wp (f a) (fun _ => I rest) E s) :
    ∀ (l : List α) (s : σ), I l s → wp (forEach f l) (fun _ => I []) E s
  | [], _, h => h
  | a :: rest, s, h =>
    wp_bind.2 (wp_mono (hstep a rest s h) (fun _ t ht => wp_forEach hstep rest t ht)
      fun _ _ he => he)

theorem wp_run {m : Prog σ ε α} (h : wp m Q E s) {x : Except ε α} {t : σ} (hm : m.run s = (x, t)) :
    (∀ a, x = .ok a → Q a t) ∧ ∀ e, x = .error e → E e t := by
  unfold wp at h
  unfold run at hm
  rw [hm] at h
  rcases x with e | a <;> simpa using h

end

/-! ## What a program keeps -/

/-- However `m` ends, it is in `I` when it started there. -/
def Keeps (I : σ → Prop) (m : Prog σ ε α) : Prop := ∀ s, I s → wp m (fun _ => I) (fun _ => I) s

namespace Keeps

variable {I : σ → Prop}

theorem pure (a : α) : Keeps I (pure a : Prog σ ε α) := fun _ h => h

theorem bind {m : Prog σ ε β} {f : β → Prog σ ε α} (hm : Keeps I m) (hf : ∀ b, Keeps I (f b)) :
    Keeps I (m >>= f) := fun s h =>
  wp_bind.2 (wp_mono (hm s h) (fun b t ht => hf b t ht) fun _ _ ht => ht)

/-- A part that keeps the invariant, in front of one that does so where it fails. -/
theorem past {m : Prog σ ε β} {f : β → Prog σ ε α} {Q : α → σ → Prop} {s : σ} (hm : Keeps I m)
    (hs : I s) (hf : ∀ b t, I t → wp (f b) Q (fun _ => I) t) :
    wp (m >>= f) Q (fun _ => I) s :=
  wp_bind.2 (wp_mono (hm s hs) (fun b t ht => hf b t ht) fun _ _ h => h)

theorem current : Keeps I (current : Prog σ ε σ) := fun _ h => h

theorem update {f : σ → σ} (hf : ∀ s, I s → I (f s)) : Keeps I (update f : Prog σ ε Unit) := hf

theorem fail (e : ε) : Keeps I (fail e : Prog σ ε α) := fun _ h => h

theorem lift (x : Except ε α) : Keeps I (lift x : Prog σ ε α) := fun _ h =>
  wp_lift.2 ⟨fun _ _ => h, fun _ _ => h⟩

theorem attempt {m : Prog σ ε β} (hm : Keeps I m) : Keeps I (attempt m) := fun s h =>
  wp_attempt.2 (hm s h)

theorem rescue {m : Prog σ ε Unit} {h : ε → Prog σ ε Unit} (hm : Keeps I m)
    (hh : ∀ e, Keeps I (h e)) : Keeps I (rescue m h) := fun s hs =>
  wp_rescue.2 (wp_mono (hm s hs) (fun _ _ ht => ht) fun e t ht => hh e t ht)

theorem bailIf (c : Prop) [Decidable c] (e : ε) : Keeps I (bailIf c e : Prog σ ε Unit) :=
  fun _ h => wp_bailIf.2 ⟨fun _ => h, fun _ => h⟩

theorem orError (e : ε) (o : Option α) : Keeps I (orError e o : Prog σ ε α) :=
  fun _ h => wp_orError.2 ⟨fun _ _ => h, fun _ => h⟩

theorem ite {c : Prop} [Decidable c] {m n : Prog σ ε α} (hm : Keeps I m) (hn : Keeps I n) :
    Keeps I (if c then m else n) := by
  by_cases h : c
  · rwa [if_pos h]
  · rwa [if_neg h]

theorem when {c : Prop} [Decidable c] {m : Prog σ ε Unit} (hm : Keeps I m) :
    Keeps I (when c m) :=
  ite hm (pure ())

theorem when_false {c : Prop} [Decidable c] {m : Prog σ ε Unit} (h : ¬c) :
    Keeps I (Prog.when c m) := by
  unfold Prog.when
  rw [if_neg h]
  exact pure ()

theorem forEach {f : α → Prog σ ε Unit} : ∀ {l : List α}, (∀ a ∈ l, Keeps I (f a)) →
    Keeps I (forEach f l)
  | [], _ => pure ()
  | a :: _, h => bind (h a (by simp)) fun _ => forEach fun b hb => h b (by simp [hb])

/-- What holds at the end of a program that keeps `I`. -/
theorem run {m : Prog σ ε α} (hm : Keeps I m) {s : σ} (h : I s) : I (m.run s).2 := by
  have hw := hm s h
  unfold wp at hw
  unfold Prog.run
  rcases hr : m s with ⟨_ | _, t⟩ <;> rw [hr] at hw <;> exact hw

end Keeps

/-- However `m` ends, it is in `J` when it started in `I`. -/
def Leads (I J : σ → Prop) (m : Prog σ ε α) : Prop := ∀ s, I s → wp m (fun _ => J) (fun _ => J) s

namespace Leads

variable {I J K : σ → Prop}

theorem of_keeps {m : Prog σ ε α} (h : Keeps I m) (hJ : ∀ s, I s → J s) : Leads I J m := fun s hs =>
  wp_mono (h s hs) (fun _ _ ht => hJ _ ht) fun _ _ ht => hJ _ ht

theorem bind {m : Prog σ ε β} {f : β → Prog σ ε α} (hm : Keeps I m) (hf : ∀ b, Leads I J (f b))
    (hJ : ∀ s, I s → J s) : Leads I J (m >>= f) := fun s hs =>
  wp_bind.2 (wp_mono (hm s hs) (fun b t ht => hf b t ht) fun _ _ ht => hJ _ ht)

theorem keeps {m : Prog σ ε β} {f : β → Prog σ ε α} (hm : Leads I J m) (hf : ∀ b, Keeps J (f b)) :
    Leads I J (m >>= f) := fun s hs =>
  wp_bind.2 (wp_mono (hm s hs) (fun b t ht => hf b t ht) fun _ _ ht => ht)

theorem rescue {m : Prog σ ε Unit} {h : ε → Prog σ ε Unit} (hm : Leads I J m)
    (hh : ∀ e, Keeps J (h e)) : Leads I J (rescue m h) := fun s hs =>
  wp_rescue.2 (wp_mono (hm s hs) (fun _ _ ht => ht) fun e t ht => hh e t ht)

theorem run {m : Prog σ ε α} (hm : Leads I J m) {s : σ} (h : I s) : J (m.run s).2 := by
  have hw := hm s h
  unfold wp at hw
  unfold Prog.run
  rcases hr : m s with ⟨_ | _, t⟩ <;> rw [hr] at hw <;> exact hw

end Leads

/-- However `m` ends, it is in `I` when it started there, and what it returns is in `Q`. -/
def Gives (I : σ → Prop) (m : Prog σ ε α) (Q : α → Prop) : Prop :=
  ∀ s, I s → wp m (fun a t => Q a ∧ I t) (fun _ => I) s

namespace Gives

variable {I : σ → Prop} {Q : α → Prop} {R : β → Prop}

theorem keeps {m : Prog σ ε α} (h : Gives I m Q) : Keeps I m := fun s hs =>
  wp_mono (h s hs) (fun _ _ ht => ht.2) fun _ _ ht => ht

theorem of_keeps {m : Prog σ ε α} (h : Keeps I m) : Gives I m fun _ => True := fun s hs =>
  wp_mono (h s hs) (fun _ _ ht => ⟨trivial, ht⟩) fun _ _ ht => ht

theorem any (m : Prog σ ε α) : Gives (fun _ => True) m fun _ => True := fun s _ => by
  unfold wp
  rcases m s with ⟨_ | _, _⟩ <;> simp

theorem pure {a : α} (h : Q a) : Gives I (pure a : Prog σ ε α) Q := fun _ hs => ⟨h, hs⟩

theorem lift {x : Except ε α} (h : ∀ a, x = .ok a → Q a) : Gives I (lift x : Prog σ ε α) Q :=
  fun _ hs => wp_lift.2 ⟨fun a ha => ⟨h a ha, hs⟩, fun _ _ => hs⟩

theorem bind {m : Prog σ ε α} {f : α → Prog σ ε β} (hm : Gives I m Q)
    (hf : ∀ a, Q a → Gives I (f a) R) : Gives I (m >>= f) R := fun s hs =>
  wp_bind.2 (wp_mono (hm s hs) (fun a t ht => hf a ht.1 t ht.2) fun _ _ ht => ht)

theorem fail {e : ε} : Gives I (fail e : Prog σ ε α) Q := fun _ hs => hs

theorem ite {c : Prop} [Decidable c] {m n : Prog σ ε α} (hm : Gives I m Q) (hn : Gives I n Q) :
    Gives I (if c then m else n) Q := by
  by_cases h : c
  · rwa [if_pos h]
  · rwa [if_neg h]

theorem mono {Q' : α → Prop} {m : Prog σ ε α} (h : Gives I m Q) (hQ : ∀ a, Q a → Q' a) :
    Gives I m Q' := fun s hs =>
  wp_mono (h s hs) (fun a _ ht => ⟨hQ a ht.1, ht.2⟩) fun _ _ ht => ht

/-- What a part returns does not matter, when it keeps the invariant. -/
theorem past {m : Prog σ ε α} {f : α → Prog σ ε β} (hm : Keeps I m) (hf : ∀ a, Gives I (f a) R) :
    Gives I (m >>= f) R := fun s hs =>
  wp_bind.2 (wp_mono (hm s hs) (fun a t ht => hf a t ht) fun _ _ ht => ht)

theorem look {f : σ → Prog σ ε β} (hf : ∀ s, Gives I (f s) R) : Gives I (current >>= f) R :=
  past Keeps.current hf

theorem set {g : σ → σ} {f : Unit → Prog σ ε β} (hg : ∀ s, I s → I (g s)) (hf : Gives I (f ()) R) :
    Gives I (Prog.update g >>= f) R :=
  past (Keeps.update hg) fun _ => hf

theorem check {c : Prop} [Decidable c] {e : ε} {f : Unit → Prog σ ε β} (hf : Gives I (f ()) R) :
    Gives I (bailIf c e >>= f) R :=
  past (Keeps.bailIf c e) fun _ => hf

theorem need {e : ε} {o : Option α} {f : α → Prog σ ε β} (hf : ∀ a, Gives I (f a) R) :
    Gives I (orError e o >>= f) R :=
  past (Keeps.orError e o) hf

theorem calculate {x : Except ε α} {f : α → Prog σ ε β} (hf : ∀ a, Gives I (f a) R) :
    Gives I (Prog.lift x >>= f) R :=
  past (Keeps.lift x) hf

/-- What a program keeps, and what it returns wherever it starts. -/
theorem and_keeps {m : Prog σ ε α} (h : Keeps I m) (hm : Gives (fun _ => True) m Q) : Gives I m Q := by
  intro s hs
  have h1 := h s hs
  have h2 := hm s trivial
  unfold wp at h1 h2 ⊢
  rcases hr : m s with ⟨_ | _, t⟩ <;> rw [hr] at h1 h2
  · exact h1
  · exact ⟨h2.1, h1⟩

theorem value {m : Prog σ ε α} {a : α} {s : σ} (h : Gives I m Q) (hs : I s) (ha : (m s).1 = .ok a) :
    Q a := by
  have hw := h s hs
  unfold wp at hw
  rcases hr : m s with ⟨e | b, t⟩ <;> rw [hr] at ha
  · cases ha
  · rw [hr] at hw
    obtain rfl := Except.ok.inj ha
    exact hw.1

/-- The value is known only where the program goes on. -/
theorem bindKeeps {m : Prog σ ε α} {f : α → Prog σ ε β} (hm : Gives I m Q)
    (hf : ∀ a, Q a → Keeps I (f a)) : Keeps I (m >>= f) :=
  (hm.bind fun a ha => of_keeps (hf a ha)).keeps

theorem attempt {m : Prog σ ε α} (hm : Gives I m Q) :
    Gives I (attempt m) fun x => ∀ a, x = .ok a → Q a := fun s hs =>
  wp_attempt.2 (wp_mono (hm s hs)
    (fun a t ht => ⟨fun b hb => (Except.ok.inj hb) ▸ ht.1, ht.2⟩)
    fun e t ht => ⟨fun b hb => (nomatch hb), ht⟩)

end Gives

/-! ## How a program fails -/

/-- Wherever `m` starts, an error of it is in `F`. -/
def Fails (F : ε → Prop) (m : Prog σ ε α) : Prop := ∀ s, wp m (fun _ _ => True) (fun e _ => F e) s

namespace Fails

variable {F : ε → Prop} {I : σ → Prop}

theorem pure (a : α) : Fails F (pure a : Prog σ ε α) := fun _ => trivial

theorem bind {m : Prog σ ε β} {f : β → Prog σ ε α} (hm : Fails F m) (hf : ∀ b, Fails F (f b)) :
    Fails F (m >>= f) := fun s =>
  wp_bind.2 (wp_mono (hm s) (fun b t _ => hf b t) fun _ _ h => h)

theorem current : Fails F (current : Prog σ ε σ) := fun _ => trivial

theorem update (f : σ → σ) : Fails F (update f : Prog σ ε Unit) := fun _ => trivial

theorem fail {e : ε} (h : F e) : Fails F (fail e : Prog σ ε α) := fun _ => h

theorem lift {x : Except ε α} (h : ∀ e, x = .error e → F e) : Fails F (lift x : Prog σ ε α) :=
  fun _ => wp_lift.2 ⟨fun _ _ => trivial, h⟩

theorem attempt (m : Prog σ ε α) : Fails F (attempt m) := fun s =>
  wp_attempt.2 (by unfold wp; split <;> trivial)

theorem rescue {m : Prog σ ε Unit} {h : ε → Prog σ ε Unit} (hm : Fails F m)
    (hh : ∀ e, F e → Fails F (h e)) : Fails F (rescue m h) := fun s =>
  wp_rescue.2 (wp_mono (hm s) (fun _ _ _ => trivial) fun e t he => hh e he t)

theorem bailIf {c : Prop} [Decidable c] {e : ε} (h : F e) :
    Fails F (bailIf c e : Prog σ ε Unit) := fun _ => wp_bailIf.2 ⟨fun _ => h, fun _ => trivial⟩

theorem orError {e : ε} (h : F e) (o : Option α) : Fails F (orError e o : Prog σ ε α) :=
  fun _ => wp_orError.2 ⟨fun _ _ => trivial, fun _ => h⟩

theorem ite {c : Prop} [Decidable c] {m n : Prog σ ε α} (hm : Fails F m) (hn : Fails F n) :
    Fails F (if c then m else n) := by
  by_cases h : c
  · rwa [if_pos h]
  · rwa [if_neg h]

theorem when {c : Prop} [Decidable c] {m : Prog σ ε Unit} (hm : Fails F m) :
    Fails F (when c m) :=
  ite hm (pure ())

theorem forEach {f : α → Prog σ ε Unit} (h : ∀ a, Fails F (f a)) :
    ∀ l : List α, Fails F (forEach f l)
  | [] => pure ()
  | a :: l => bind (h a) fun _ => forEach h l

/-- A part that keeps the invariant and fails as it may. -/
theorem past {m : Prog σ ε β} {f : β → Prog σ ε α} {Q : α → σ → Prop} {s : σ} (hm : Fails F m)
    (hI : Keeps I m) (hs : I s) (hf : ∀ b t, I t → wp (f b) Q (fun e _ => F e) t) :
    wp (m >>= f) Q (fun e _ => F e) s :=
  wp_bind.2 (wp_mono (wp_and (hI s hs) (hm s)) (fun b t ht => hf b t ht.1) fun _ _ h => h.2)

end Fails

/-! ## What a program leaves alone -/

/-- However far `m` gets, a view of the state is as it was when it returns, with a value in `Q`. -/
def Leaves {τ : Type} (view : σ → τ) (m : Prog σ ε α) (Q : α → Prop) : Prop :=
  ∀ s, wp m (fun a t => Q a ∧ view t = view s) (fun _ _ => True) s

namespace Leaves

variable {τ γ : Type} {view : σ → τ} {Q : α → Prop} {R : β → Prop}

theorem pure {a : α} (h : Q a) : Leaves view (pure a : Prog σ ε α) Q := fun _ => ⟨h, rfl⟩

theorem bind {m : Prog σ ε α} {f : α → Prog σ ε β} (hm : Leaves view m Q)
    (hf : ∀ a, Q a → Leaves view (f a) R) : Leaves view (m >>= f) R := fun s =>
  wp_bind.2 (wp_mono (hm s) (fun a t ht => wp_mono (hf a ht.1 t)
    (fun _ _ hu => ⟨hu.1, hu.2.trans ht.2⟩) fun _ _ _ => trivial) fun _ _ _ => trivial)

theorem current : Leaves view (current : Prog σ ε σ) fun _ => True := fun _ => ⟨trivial, rfl⟩

theorem update {f : σ → σ} (hf : ∀ s, view (f s) = view s) :
    Leaves view (update f : Prog σ ε Unit) fun _ => True := fun s => ⟨trivial, hf s⟩

theorem lift {x : Except ε α} : Leaves view (lift x : Prog σ ε α) fun _ => True := fun _ =>
  wp_lift.2 ⟨fun _ _ => ⟨trivial, rfl⟩, fun _ _ => trivial⟩

theorem fail {e : ε} : Leaves view (fail e : Prog σ ε α) Q := fun _ => trivial

theorem bailIf {c : Prop} [Decidable c] {e : ε} :
    Leaves view (bailIf c e : Prog σ ε Unit) fun _ => True := fun _ =>
  wp_bailIf.2 ⟨fun _ => trivial, fun _ => ⟨trivial, rfl⟩⟩

theorem orError {o : Option α} {e : ε} :
    Leaves view (orError e o : Prog σ ε α) fun _ => True := fun _ =>
  wp_orError.2 ⟨fun _ _ => ⟨trivial, rfl⟩, fun _ => trivial⟩

theorem ite {c : Prop} [Decidable c] {m n : Prog σ ε α} (hm : Leaves view m Q)
    (hn : Leaves view n Q) : Leaves view (if c then m else n) Q := by
  by_cases h : c
  · rwa [if_pos h]
  · rwa [if_neg h]

theorem when {c : Prop} [Decidable c] {m : Prog σ ε Unit} (hm : Leaves view m fun _ => True) :
    Leaves view (when c m) fun _ => True := ite hm (pure trivial)

theorem forEach {f : γ → Prog σ ε Unit} (h : ∀ x, Leaves view (f x) fun _ => True) :
    ∀ l : List γ, Leaves view (forEach f l) fun _ => True
  | [] => pure trivial
  | x :: l => bind (h x) fun _ _ => forEach h l

theorem gather {f : γ → Prog σ ε (List β)} {P : β → Prop}
    (h : ∀ x, Leaves view (f x) fun out => ∀ b ∈ out, P b) :
    ∀ l : List γ, Leaves view (gather f l) fun out => ∀ b ∈ out, P b
  | [] => pure fun _ hb => absurd hb List.not_mem_nil
  | x :: l => bind (h x) fun _ ho => bind (gather h l) fun _ hm => pure fun b hb =>
      (List.mem_append.1 hb).elim (ho b) (hm b)

end Leaves

end Prog
