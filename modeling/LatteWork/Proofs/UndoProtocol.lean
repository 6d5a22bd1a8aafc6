import LatteWork.Proofs.TurnRecords
import LatteWork.Proofs.UndoRestores
import LatteWork.Server.UndoRequest

/-!
# The undo protocol

What a turn's undo has done can be read off the record of the turn (`Settled`): nothing while the
record says ready, some of the listed paths while it says unknown, all of them once it says
reverted. The request that is under way is the only one that can add to it, and only until it
ends: a turn whose undo ended in any way is closed for good.
-/

namespace LatteWork

open Fallible

variable {svc : Services}

/-- The complete change list of a turn, as some object directory has it, is of these paths. -/
def FrozenTurn.Lists (svc : Services) (t : FrozenTurn) (listed : List String) : Prop :=
  ∃ objects full, t.full svc objects = .ok full ∧ full.entries.map (·.path) = listed

theorem FrozenTurn.Lists.mark {t : FrozenTurn} {listed : List String} (h : t.Lists svc listed)
    (u : TurnUndoStatus) : (t.mark u).Lists svc listed := by
  obtain ⟨objects, full, hfull, rfl⟩ := h
  exact ⟨objects, full, hfull, rfl⟩

/-- The effects of an undo, by the record of its turn. -/
def Settled (svc : Services) (effects : List Effect) : Option FrozenTurn → Prop
  | none => effects = []
  | some t => match t.changes.undo with
    | .ready => effects = []
    | .unknown => ∃ done todo, effects = .stored .unknown :: done.map .wrote ∧
        (done ≠ [] → t.Lists svc (done ++ todo))
    | .reverted => ∃ listed, t.Lists svc listed ∧
        effects = .stored .unknown :: listed.map .wrote ++ [.stored .reverted]

theorem settled_ready {effects : List Effect} {t : FrozenTurn} (ht : t.changes.undo = .ready) :
    Settled svc effects (some t) ↔ effects = [] := by
  simp only [Settled, ht]

theorem settled_unknown {effects : List Effect} {t : FrozenTurn} (ht : t.changes.undo = .unknown) :
    Settled svc effects (some t) ↔ ∃ done todo, effects = .stored .unknown :: done.map .wrote ∧
      (done ≠ [] → t.Lists svc (done ++ todo)) := by
  simp only [Settled, ht]

theorem settled_reverted {effects : List Effect} {t : FrozenTurn} (ht : t.changes.undo = .reverted) :
    Settled svc effects (some t) ↔ ∃ listed, t.Lists svc listed ∧
      effects = .stored .unknown :: listed.map .wrote ++ [.stored .reverted] := by
  simp only [Settled, ht]

/-- How the undo status of a turn may move. -/
def Follows : Option TurnUndoStatus → Option TurnUndoStatus → Prop
  | none, some .ready | some .ready, some .unknown | some .unknown, some .reverted => True
  | a, b => a = b

theorem Follows.refl (a : Option TurnUndoStatus) : Follows a a := by
  rcases a with _ | _ | _ | _ <;> trivial

namespace Host

variable {h : Host} {id requestId : String}

/-- Where a request for `turn` stands, the record of the turn being `t` and the effects on it
`effects`. -/
def At (svc : Services) (turn t : FrozenTurn) (effects : List Effect) : UndoStage → Prop
  | .validate | .close | .validateAgain => t.attach = turn ∧ t.changes.undo ≠ .reverted
  | .intend => t.attach = turn ∧ t.changes.undo = .ready
  | .load => t = turn ∧ t.changes.undo = .unknown ∧ effects = [.stored .unknown]
  | .restore _ todo => t = turn ∧ t.changes.undo = .unknown ∧
      ∃ done, effects = .stored .unknown :: done.map .wrote ∧ t.Lists svc (done ++ todo)
  | .settle => t = turn ∧ t.changes.undo = .unknown ∧
      ∃ listed, effects = .stored .unknown :: listed.map .wrote ∧ t.Lists svc listed

/-- The invariant: every turn is settled, and the request under way stands where it says. -/
structure Sound (svc : Services) (h : Host) : Prop where
  kept : h.store.TurnsKept
  settled : ∀ id requestId,
    Settled svc (h.effects id requestId) (h.store.turnRecord id requestId)
  running : ∀ run, h.undo = some run → ∃ t,
    h.store.turnRecord run.sessionId run.requestId = some t ∧
      At svc run.turn t (h.effects run.sessionId run.requestId) run.stage

theorem effects_own {h' : Host} {run : UndoRun} {effect : Effect}
    (hm : h'.marks = h.marks ++ [run.mark effect]) :
    h'.effects run.sessionId run.requestId = h.effects run.sessionId run.requestId ++ [effect] := by
  rw [effects, hm, List.filter_append, List.map_append, effects]
  simp [UndoRun.mark]

theorem effects_other {h' : Host} {run : UndoRun} {effect : Effect}
    (hm : h'.marks = h.marks ++ [run.mark effect])
    (hne : ¬(run.sessionId = id ∧ run.requestId = requestId)) :
    h'.effects id requestId = h.effects id requestId := by
  rw [effects, hm, List.filter_append, List.map_append, effects]
  simp [UndoRun.mark, hne]

/-- The effects of the server are as they were. -/
theorem effects_congr {h' : Host} (hm : h'.marks = h.marks) :
    h'.effects id requestId = h.effects id requestId := by
  rw [effects, hm, effects]

/-- Keeping records and marks keeps the invariant, the request going on or not. -/
theorem Sound.of_same {h' : Host} (hs : Sound svc h) (hsame : h.store.SameTurns h'.store)
    (hm : h'.marks = h.marks) (hu : h'.undo = h.undo ∨ h'.undo = none) : Sound svc h' := by
  refine ⟨hsame.kept hs.kept, fun id r => ?_, fun run hrun => ?_⟩
  · rw [effects_congr hm, hsame.record]
    exact hs.settled id r
  · rcases hu with hu | hu
    · rw [hu] at hrun
      rw [effects_congr hm, hsame.record]
      exact hs.running run hrun
    · rw [hu] at hrun
      cases hrun

/-! What the two calls that write a record do. -/

theorem freezeInner_ready {objects objects' : Objects} {before after : Snapshot} {i b : Bool}
    {t : FrozenTurn}
    (hf : FrozenTurn.freezeInner svc objects requestId before after i b = .ok (t, objects')) :
    t.changes.undo = .ready := by
  simp only [FrozenTurn.freezeInner, bind_eq_ok, Except.ok.injEq, Prod.mk.injEq] at hf
  obtain ⟨_, _, _, _, _, _, _, _, _, _, _, _, _, _, rfl, _⟩ := hf
  rfl

theorem freezeOr_ready {objects objects' : Objects} {before after : Snapshot} {i b : Bool}
    {now : ℕ} {t : FrozenTurn}
    (hf : FrozenTurn.freezeOr svc objects requestId before after i b now = .ok (t, objects')) :
    t.changes.undo = .ready := by
  unfold FrozenTurn.freezeOr at hf
  split at hf
  · rename_i frozen hfrozen
    obtain rfl := Except.ok.inj hf
    exact freezeInner_ready hfrozen
  · exact freezeInner_ready hf

/-- A turn that ends gets a ready record, if it had none. -/
theorem finishTurn_records {s s' : Store} {objects objects' : Objects} {after : Snapshot}
    {i b : Bool} {now : ℕ} (hk : s.TurnsKept)
    (hf : finishTurn svc objects s id after i b now = .ok (s', objects')) :
    s'.TurnsKept ∧ ∀ j r, s'.turnRecord j r = s.turnRecord j r ∨ s.turnRecord j r = none ∧
      ∃ t, s'.turnRecord j r = some t ∧ t.changes.undo = .ready := by
  unfold finishTurn at hf
  split at hf
  · obtain ⟨rfl, rfl⟩ := Prod.mk.inj (Except.ok.inj hf)
    exact ⟨hk, fun _ _ => .inl rfl⟩
  · simp only [bind_eq_ok, Except.ok.injEq, Prod.mk.injEq] at hf
    obtain ⟨⟨t, o⟩, ht, u, hu, rfl, rfl⟩ := hf
    obtain ⟨hk', hrec⟩ := Store.finishTurn_record hk hu
    refine ⟨hk', fun j r => ?_⟩
    rcases hrec j r with heq | ⟨hnone, hsome⟩
    · exact .inl heq
    · exact .inr ⟨hnone, t, hsome, freezeOr_ready ht⟩

/-- A request stores a status: its own record changes, and the mark says so. -/
theorem storeUndo_cases {run run' : UndoRun} {h' : Host} {u : TurnUndoStatus} {now : ℕ}
    {t : FrozenTurn} (hs : Sound svc h)
    (ht : h.store.turnRecord run.sessionId run.requestId = some t)
    (hreq : run.turn.changes.requestId = run.requestId)
    (hst : h.storeUndo run u now = .ok (h', run')) :
    run' = { run with turn := run.turn.mark u } ∧ h'.store.TurnsKept ∧
      h'.marks = h.marks ++ [run.mark (.stored u)] ∧ h'.undo = h.undo ∧ h'.disk = h.disk ∧
      h'.store.turnRecord run.sessionId run.requestId = some (run.turn.mark u) ∧
      ∀ i r, ¬(run.sessionId = i ∧ run.requestId = r) →
        h'.store.turnRecord i r = h.store.turnRecord i r := by
  simp only [storeUndo, bind_eq_ok, Except.ok.injEq, Prod.mk.injEq] at hst
  obtain ⟨store, hstore, rfl, rfl⟩ := hst
  have hmark : (run.turn.mark u).changes.requestId = run.requestId := hreq
  rw [← hmark] at ht
  obtain ⟨hk, hown, hother⟩ := Store.updateTurn_record hs.kept ht hstore
  rw [hmark] at hown hother
  exact ⟨rfl, hk, rfl, rfl, rfl, hown, fun i r hne => hother i r fun h => hne ⟨h.1.symm, h.2.symm⟩⟩

/-! The steps of a request, one path at a time, are the loop of `restore`. -/

theorem after_idle (hu : h.undo = none) (now : ℕ) : ∀ faults : List Bool,
    h.after svc (faults.map fun fault => .advance fault now) = h
  | [] => rfl
  | fault :: faults => by
    have hstep : h.step svc (.advance fault now) = h := by simp only [step, advance, hu]
    calc h.after svc (.advance fault now :: faults.map fun fault => .advance fault now)
        = (h.step svc (.advance fault now)).after svc
            (faults.map fun fault => .advance fault now) := rfl
      _ = h := by rw [hstep, after_idle hu now faults]

theorem after_restore {run : UndoRun} {loaded : FrozenTurn} (svc : Services) (now : ℕ) :
    ∀ {steps : List (String × Bool)} {h : Host},
      h.undo = some { run with stage := .restore loaded (steps.map (·.1)) } →
      let g := h.after svc (steps.map fun s => .advance s.2 now)
      let result := loaded.restoreLoop svc h.objects steps (h.disk run.root)
      g.disk run.root = result.1 ∧ g.undo = result.2.toOption.map fun _ =>
        { run with stage := .restore loaded [] }
  | [], h, hu => ⟨rfl, hu⟩
  | (path, fault) :: rest, h, hu => by
    intro g result
    rcases hr : loaded.restorePath svc h.objects fault (h.disk run.root) path with e | disk
    · have hstep : h.step svc (.advance fault now) = { h with undo := none } := by
        simp only [step, advance, hu, undoStep, List.map_cons, hr, bind, Except.bind]
      have hg : g = { h with undo := none } := by
        calc g = (h.step svc (.advance fault now)).after svc
              (rest.map fun s => .advance s.2 now) := rfl
          _ = (({ h with undo := none } : Host)).after svc
              ((rest.map (·.2)).map fun fault => .advance fault now) := by
            rw [hstep, List.map_map]
            rfl
          _ = { h with undo := none } := after_idle rfl now _
      have hresult : result = (h.disk run.root, .error e) := by
        simp only [result, FrozenTurn.restoreLoop, hr]
      rw [hg, hresult]
      exact ⟨rfl, rfl⟩
    · have hstep : h.step svc (.advance fault now) = { h with
          disk := Function.update h.disk run.root disk
          marks := h.marks ++ [run.mark (.wrote path)]
          undo := some { run with stage := .restore loaded (rest.map (·.1)) } } := by
        simp only [step, advance, hu, undoStep, List.map_cons, hr, bind, Except.bind]
        rfl
      have hnext : (h.step svc (.advance fault now)).undo =
          some { run with stage := .restore loaded (rest.map (·.1)) } := by
        rw [hstep]
      obtain ⟨hdisk, hundo⟩ := after_restore svc now hnext
      have hresult : result = loaded.restoreLoop svc (h.step svc (.advance fault now)).objects rest
          ((h.step svc (.advance fault now)).disk run.root) := by
        simp only [result, FrozenTurn.restoreLoop, hr, hstep, Function.update_self]
      rw [hresult]
      exact ⟨hdisk, hundo⟩

theorem checkUndo_restores {objects : Objects} {turn loaded : FrozenTurn} (fails : String → Bool) (disk : Disk)
    (hload : turn.materialized svc objects = .ok loaded) :
    turn.checkUndo svc objects fails disk true =
      let result := loaded.restoreLoop svc objects
        (loaded.changes.summary.entries.map fun e => (e.path, fails e.path)) disk
      (result.1, result.2.map fun _ => turn) := by
  simp only [FrozenTurn.checkUndo, FrozenTurn.restore, hload, if_true]

/-- From its intent on, a request does to the disk what `check_undo` does, and it goes on to store the result
if `check_undo` succeeds. -/
theorem after_load {run : UndoRun} {loaded : FrozenTurn} (fails : String → Bool) (now : ℕ)
    (hu : h.undo = some { run with stage := .load })
    (hload : run.turn.materialized svc h.objects = .ok loaded) :
    let faults := loaded.changes.summary.entries.map fun e => fails e.path
    let g := h.after svc ((false :: faults).map fun fault => .advance fault now)
    let result := run.turn.checkUndo svc h.objects fails (h.disk run.root) true
    g.disk run.root = result.1 ∧ g.undo = result.2.toOption.map fun _ =>
      { run with stage := .restore loaded [] } := by
  intro faults g result
  have hstep : h.step svc (.advance false now) = { h with undo := some { run with
      stage := .restore loaded (loaded.changes.summary.entries.map (·.path)) } } := by
    simp only [step, advance, hu, undoStep, hload, bailIf, bind, Except.bind, Bool.false_eq_true,
      if_false]
  have hnext : (h.step svc (.advance false now)).undo = some { run with
      stage := .restore loaded
        ((loaded.changes.summary.entries.map fun e => (e.path, fails e.path)).map (·.1)) } := by
    rw [hstep, List.map_map]
    rfl
  obtain ⟨hdisk, hundo⟩ := after_restore svc now hnext
  rw [List.map_map] at hdisk hundo
  have hresult : result = _ := checkUndo_restores fails (h.disk run.root) hload
  have hg : g = (h.step svc (.advance false now)).after svc
      (loaded.changes.summary.entries.map ((fun s => .advance s.2 now) ∘ fun e => (e.path, fails e.path))) := by
    simp only [g, faults, List.map_cons, List.map_map]
    rfl
  rw [hresult, hg]
  refine ⟨?_, ?_⟩
  · rw [hdisk, hstep]
  · rw [hundo, hstep]
    dsimp only
    rcases (loaded.restoreLoop svc h.objects _ (h.disk run.root)).2 with e | u <;> rfl

/-- A request that goes on from its intent. -/
def undoRun : UndoRun where
  sessionId := "s"
  requestId := "r"
  root := "/p"
  turn := editTurn.attach.mark .unknown
  stage := .load

def undoing : Host where
  store := Store.empty []
  objects := editObjects
  disk _ := editedDisk true
  undo := some undoRun

theorem after_load_undoing : ∃ loaded : FrozenTurn,
    let faults := loaded.changes.summary.entries.map fun _ => false
    let g := undoing.after editServices ((false :: faults).map fun fault => .advance fault 3)
    let result := undoRun.turn.checkUndo editServices editObjects (fun _ => false) (editedDisk true) true
    g.disk undoRun.root = result.1 ∧ g.undo = result.2.toOption.map fun _ =>
      { undoRun with stage := .restore loaded [] } := by
  have hok : (undoRun.turn.materialized editServices editObjects).isOk = true := by decide +kernel
  rcases hload : undoRun.turn.materialized editServices editObjects with e | loaded
  · rw [hload] at hok
    cases hok
  · exact ⟨loaded, @after_load editServices undoing undoRun loaded (fun _ => false) 3 rfl hload⟩

/-- What one step of a request can do: change nothing that lasts and go on or end, or write the
intent, one path, or the result. -/
theorem advance_cases {run : UndoRun} (hrun : h.undo = some run) (svc : Services) (fault : Bool)
    (now : ℕ) :
    (∃ undo, h.advance svc fault now = { h with undo } ∧ ∀ run', undo = some run' →
      ∃ stage, run' = { run with stage } ∧ run.stage.intended = stage.intended ∧
        ∀ t effects, At svc run.turn t effects run.stage → At svc run.turn t effects stage) ∨
    (run.stage = .intend ∧ ∃ h' run', h.storeUndo run .unknown now = .ok (h', run') ∧
      h.advance svc fault now = { h' with undo := some { run' with stage := .load } }) ∨
    (∃ loaded path todo disk, run.stage = .restore loaded (path :: todo) ∧
      loaded.restorePath svc h.objects fault (h.disk run.root) path = .ok disk ∧
      h.advance svc fault now = { h with
        disk := Function.update h.disk run.root disk
        marks := h.marks ++ [run.mark (.wrote path)]
        undo := some { run with stage := .restore loaded todo } }) ∨
    (run.stage = .settle ∧ ∃ h' run', h.storeUndo run .reverted now = .ok (h', run') ∧
      h.advance svc fault now = { h' with undo := none }) := by
  rcases hstep : undoStep svc h run fault now with e | ⟨h', undo⟩
  · exact .inl ⟨none, by simp only [advance, hrun, hstep], by simp⟩
  have hadv : h.advance svc fault now = { h' with undo } := by simp only [advance, hrun, hstep]
  rw [hadv]
  unfold undoStep at hstep
  rcases hstage : run.stage with _ | _ | _ | _ | _ | ⟨loaded, _ | ⟨path, todo⟩⟩ | _ <;>
    simp only [hstage, bind_eq_ok, Except.ok.injEq, Prod.mk.injEq] at hstep
  case validate =>
    obtain ⟨_, _, _, _, rfl, rfl⟩ := hstep
    refine .inl ⟨_, rfl, fun run' hrun' => ⟨.close, (Option.some.inj hrun').symm, rfl, ?_⟩⟩
    exact fun t effects hat => hat
  case close =>
    obtain ⟨_, _, rfl, rfl⟩ := hstep
    refine .inl ⟨_, rfl, fun run' hrun' => ⟨.validateAgain, (Option.some.inj hrun').symm, rfl, ?_⟩⟩
    exact fun t effects hat => hat
  case validateAgain =>
    obtain ⟨_, _, _, hvalid, rfl, rfl⟩ := hstep
    refine .inl ⟨_, rfl, fun run' hrun' => ⟨.intend, (Option.some.inj hrun').symm, rfl, ?_⟩⟩
    rintro t effects ⟨hturn, -⟩
    obtain ⟨loaded, hloaded, hready, -⟩ := FrozenTurn.validateUndo_passed hvalid
    simp only [FrozenTurn.materialized, bind_eq_ok, Except.ok.injEq] at hloaded
    obtain ⟨_, _, _, _, _, _, rfl⟩ := hloaded
    exact ⟨hturn, by rw [← hready, ← hturn]; rfl⟩
  case intend =>
    obtain ⟨_, _, ⟨g, run'⟩, hst, rfl, rfl⟩ := hstep
    exact .inr (.inl ⟨rfl, g, run', hst, rfl⟩)
  case load =>
    obtain ⟨_, _, loaded, hloaded, rfl, rfl⟩ := hstep
    refine .inl ⟨_, rfl, fun run' hrun' => ⟨_, (Option.some.inj hrun').symm, rfl, ?_⟩⟩
    rintro t effects ⟨rfl, hundo, rfl⟩
    simp only [FrozenTurn.materialized, bind_eq_ok, Except.ok.injEq] at hloaded
    obtain ⟨full, hfull, _, _, _, _, rfl⟩ := hloaded
    exact ⟨rfl, hundo, [], rfl, h.objects, full, hfull, rfl⟩
  case restore.nil =>
    obtain ⟨rfl, rfl⟩ := hstep
    refine .inl ⟨_, rfl, fun run' hrun' => ⟨.settle, (Option.some.inj hrun').symm, rfl, ?_⟩⟩
    rintro t effects ⟨hturn, hundo, done, heff, hlist⟩
    exact ⟨hturn, hundo, done, heff, by simpa using hlist⟩
  case restore.cons =>
    obtain ⟨disk, hdisk, rfl, rfl⟩ := hstep
    exact .inr (.inr (.inl ⟨loaded, path, todo, disk, rfl, hdisk, rfl⟩))
  case settle =>
    obtain ⟨_, _, ⟨g, run'⟩, hst, rfl, rfl⟩ := hstep
    exact .inr (.inr (.inr ⟨rfl, g, run', hst, rfl⟩))

/-- A request that has stored its intent, for this turn. -/
def Intends (h : Host) (id requestId : String) (run : UndoRun) : Prop :=
  h.undo = some run ∧ run.sessionId = id ∧ run.requestId = requestId ∧ run.stage.intended = true

/-- What one step can do to one turn. -/
inductive Change (h h' : Host) (id requestId : String) : Prop
  | same (record : h'.store.turnRecord id requestId = h.store.turnRecord id requestId)
      (effects : h'.effects id requestId = h.effects id requestId)
      (runs : ∀ run', h'.Intends id requestId run' → ∃ run, h.Intends id requestId run)
  | finished (t : FrozenTurn) (before : h.store.turnRecord id requestId = none)
      (record : h'.store.turnRecord id requestId = some t) (undo : t.changes.undo = .ready)
      (effects : h'.effects id requestId = h.effects id requestId)
  | intended (t t' : FrozenTurn) (before : h.store.turnRecord id requestId = some t)
      (ready : t.changes.undo = .ready) (record : h'.store.turnRecord id requestId = some t')
      (undo : t'.changes.undo = .unknown)
      (effects : h'.effects id requestId = h.effects id requestId ++ [.stored .unknown])
  | wrote (run : UndoRun) (path : String) (runs : h.Intends id requestId run)
      (record : h'.store.turnRecord id requestId = h.store.turnRecord id requestId)
      (effects : h'.effects id requestId = h.effects id requestId ++ [.wrote path])
  | settled (run : UndoRun) (t t' : FrozenTurn) (runs : h.Intends id requestId run)
      (before : h.store.turnRecord id requestId = some t) (unknown : t.changes.undo = .unknown)
      (record : h'.store.turnRecord id requestId = some t') (undo : t'.changes.undo = .reverted)
      (effects : h'.effects id requestId = h.effects id requestId ++ [.stored .reverted])

theorem Change.of_same {h' : Host} (hsame : h.store.SameTurns h'.store) (hm : h'.marks = h.marks)
    (hu : h'.undo = h.undo ∨ h'.undo = none) (id requestId : String) :
    Change h h' id requestId := by
  refine .same (hsame.record id requestId) (effects_congr hm) fun run' hruns => ?_
  obtain ⟨hrun, hkey⟩ := hruns
  rcases hu with hu | hu
  · exact ⟨run', hu ▸ hrun, hkey⟩
  · rw [hu] at hrun
    cases hrun

/-- Another turn's record and effects are as they were while a request writes its own. -/
theorem Change.elsewhere {h' : Host} {run : UndoRun} {effect : Effect}
    (hm : h'.marks = h.marks ++ [run.mark effect])
    (hother : h'.store.turnRecord id requestId = h.store.turnRecord id requestId)
    (hu : ∀ run', h'.undo = some run' →
      run'.sessionId = run.sessionId ∧ run'.requestId = run.requestId)
    (hne : ¬(run.sessionId = id ∧ run.requestId = requestId)) : Change h h' id requestId := by
  refine .same hother (effects_other hm hne) fun run' hruns => ?_
  obtain ⟨hrun, hid, hreq, -⟩ := hruns
  obtain ⟨hid', hreq'⟩ := hu run' hrun
  exact absurd ⟨hid' ▸ hid, hreq' ▸ hreq⟩ hne

theorem At.changes {turn t : FrozenTurn} {effects : List Effect} {stage : UndoStage}
    (hat : At svc turn t effects stage) : turn.changes = t.changes := by
  rcases stage with _ | _ | _ | _ | _ | _ | _
  case validate | close | validateAgain | intend => rw [← hat.1, FrozenTurn.attach]
  case load | restore | settle => rw [hat.1]

/-- A request that wrote a mark: its own turn, and the request, are to be looked at. -/
theorem Sound.of_mark {h' : Host} {run : UndoRun} {effect : Effect} (hs : Sound svc h)
    (hk : h'.store.TurnsKept) (hm : h'.marks = h.marks ++ [run.mark effect])
    (hother : ∀ i r, ¬(run.sessionId = i ∧ run.requestId = r) →
      h'.store.turnRecord i r = h.store.turnRecord i r)
    (hown : Settled svc (h.effects run.sessionId run.requestId ++ [effect])
      (h'.store.turnRecord run.sessionId run.requestId))
    (hrun : ∀ run', h'.undo = some run' → run'.sessionId = run.sessionId ∧
      run'.requestId = run.requestId ∧
      ∃ t, h'.store.turnRecord run.sessionId run.requestId = some t ∧
        At svc run'.turn t (h.effects run.sessionId run.requestId ++ [effect]) run'.stage) :
    Sound svc h' := by
  refine ⟨hk, fun i r => ?_, fun run' hrun' => ?_⟩
  · by_cases hkey : run.sessionId = i ∧ run.requestId = r
    · obtain ⟨rfl, rfl⟩ := hkey
      rw [effects_own hm]
      exact hown
    · rw [effects_other hm hkey, hother i r hkey]
      exact hs.settled i r
  · obtain ⟨hid, hreq, t, ht, hat⟩ := hrun run' hrun'
    rw [hid, hreq, effects_own hm]
    exact ⟨t, ht, hat⟩

/-- One step of a request keeps the invariant and changes a turn in one of the known ways. -/
theorem advance_sound {fault : Bool} {now : ℕ} (hs : Sound svc h) :
    Sound svc (h.advance svc fault now) ∧
      ∀ id requestId, Change h (h.advance svc fault now) id requestId := by
  rcases hundo : h.undo with _ | run
  · have hnone : h.advance svc fault now = h := by simp only [advance, hundo]
    rw [hnone]
    exact ⟨hs, .of_same (.refl _) rfl (.inl rfl)⟩
  obtain ⟨t, ht, hat⟩ := hs.running run hundo
  have hrequest : run.turn.changes.requestId = run.requestId := by
    rw [hat.changes]
    exact Store.turnRecord_requestId hs.kept ht
  have hsettled := hs.settled run.sessionId run.requestId
  rw [ht] at hsettled
  rcases advance_cases hundo svc fault now with
    ⟨undo, hadv, hnext⟩ | ⟨hstage, g, run', hst, hadv⟩ |
    ⟨loaded, path, todo, disk, hstage, hdisk, hadv⟩ | ⟨hstage, g, run', hst, hadv⟩
  · rw [hadv]
    refine ⟨⟨hs.kept, hs.settled, fun run' hrun' => ?_⟩, fun i r => ?_⟩
    · obtain ⟨stage, rfl, -, hstays⟩ := hnext run' hrun'
      exact ⟨t, ht, hstays t _ hat⟩
    · refine .same rfl rfl fun run' hruns => ?_
      obtain ⟨hrun', hid, hreq, hint⟩ := hruns
      obtain ⟨stage, rfl, hstage, -⟩ := hnext run' hrun'
      exact ⟨run, hundo, hid, hreq, hstage.trans hint⟩
  · obtain ⟨rfl, hk, hm, -, -, hown, hother⟩ := storeUndo_cases hs ht hrequest hst
    rw [hstage] at hat
    obtain ⟨-, hready⟩ := hat
    have hnone : h.effects run.sessionId run.requestId = [] := (settled_ready hready).1 hsettled
    rw [hadv]
    refine ⟨hs.of_mark hk hm hother ?_ ?_, fun i r => ?_⟩
    · rw [hown, settled_unknown rfl, hnone]
      exact ⟨[], [], rfl, fun hne => absurd rfl hne⟩
    · rintro run' hrun'
      obtain rfl := Option.some.inj hrun'
      exact ⟨rfl, rfl, _, hown, rfl, rfl, by rw [hnone]; rfl⟩
    · by_cases hkey : run.sessionId = i ∧ run.requestId = r
      · obtain ⟨rfl, rfl⟩ := hkey
        exact .intended t _ ht hready hown rfl (effects_own hm)
      · refine .elsewhere hm (hother i r hkey) (fun run' hrun' => ?_) hkey
        obtain rfl := Option.some.inj hrun'
        exact ⟨rfl, rfl⟩
  · rw [hstage] at hat
    obtain ⟨rfl, hunknown, done, heff, hlist⟩ := hat
    rw [hadv]
    have hm : h.marks ++ [run.mark (.wrote path)] = h.marks ++ [run.mark (.wrote path)] := rfl
    refine ⟨Sound.of_mark hs hs.kept hm (fun _ _ _ => rfl) ?_ ?_, fun i r => ?_⟩
    · rw [ht, settled_unknown hunknown, heff]
      exact ⟨done ++ [path], todo, by simp, fun _ => by simpa using hlist⟩
    · rintro run' hrun'
      obtain rfl := Option.some.inj hrun'
      exact ⟨rfl, rfl, _, ht, rfl, hunknown, done ++ [path], by simp [heff], by simpa using hlist⟩
    · by_cases hkey : run.sessionId = i ∧ run.requestId = r
      · obtain ⟨rfl, rfl⟩ := hkey
        have hruns : h.Intends run.sessionId run.requestId run :=
          ⟨hundo, rfl, rfl, by rw [hstage]; rfl⟩
        exact .wrote run path hruns rfl (effects_own rfl)
      · refine .elsewhere hm rfl (fun run' hrun' => ?_) hkey
        obtain rfl := Option.some.inj hrun'
        exact ⟨rfl, rfl⟩
  · obtain ⟨rfl, hk, hm, -, -, hown, hother⟩ := storeUndo_cases hs ht hrequest hst
    have hint : run.stage.intended = true := by rw [hstage]; rfl
    rw [hstage] at hat
    obtain ⟨rfl, hunknown, listed, heff, hlist⟩ := hat
    rw [hadv]
    refine ⟨hs.of_mark hk hm hother ?_ ?_, fun i r => ?_⟩
    · rw [hown, settled_reverted rfl, heff]
      exact ⟨listed, hlist.mark _, rfl⟩
    · rintro run' hrun'
      cases hrun'
    · by_cases hkey : run.sessionId = i ∧ run.requestId = r
      · obtain ⟨rfl, rfl⟩ := hkey
        exact .settled run _ _ ⟨hundo, rfl, rfl, hint⟩ ht hunknown hown rfl (effects_own hm)
      · refine .elsewhere hm (hother i r hkey) (fun run' hrun' => ?_) hkey
        cases hrun'

/-- The arrival of a request adds at most the request. -/
theorem requestUndo_cases (id requestId : String) (idle : Bool) :
    (h.requestUndo id requestId idle).1 = h ∨ h.undo = none ∧ ∃ run t,
      (h.requestUndo id requestId idle).1 = { h with undo := some run } ∧
        run.sessionId = id ∧ run.requestId = requestId ∧ run.stage = .validate ∧
        h.store.turnRecord id requestId = some t ∧ t.attach = run.turn ∧
        t.changes.undo ≠ .reverted := by
  unfold requestUndo
  split
  · exact .inl rfl
  rename_i hfree
  rcases hadmit : h.admitUndo id requestId idle with e | changes | run
  · exact .inl rfl
  · exact .inl rfl
  · right
    simp only [admitUndo, Store.turnChangesOf, bind_eq_ok, orError_eq_ok] at hadmit
    obtain ⟨t, ⟨_, _, ht⟩, hadmit⟩ := hadmit
    refine ⟨Option.isNone_iff_eq_none.1 (by simpa using hfree), run, t, rfl, ?_⟩
    split at hadmit
    · cases hadmit
    · rename_i hundo
      simp only [bind_eq_ok, Except.ok.injEq, Sum.inr.injEq] at hadmit
      obtain ⟨_, _, _, _, _, _, _, _, _, _, rfl⟩ := hadmit
      exact ⟨rfl, rfl, rfl, ht, rfl, hundo⟩

/-- Every step keeps the invariant and changes a turn in one of the known ways. -/
theorem step_sound (hs : Sound svc h) (o : HostOp) :
    Sound svc (h.step svc o) ∧ ∀ id requestId, Change h (h.step svc o) id requestId := by
  cases o with
  | database o ho now =>
    have hsame : h.store.SameTurns (h.store.step (o, now)) :=
      Runs.attempt_keeps (fun _ => Store.apply_same ho) (.refl _)
    exact ⟨hs.of_same hsame rfl (.inl rfl), .of_same hsame rfl (.inl rfl)⟩
  | finishTurn id after i b now =>
    simp only [step]
    split
    · exact ⟨hs, .of_same (.refl _) rfl (.inl rfl)⟩
    · rename_i store objects hfinish
      obtain ⟨hk, hrec⟩ := finishTurn_records hs.kept hfinish
      refine ⟨⟨hk, fun j r => ?_, fun run hrun => ?_⟩, fun j r => ?_⟩
      · have hsettled := hs.settled j r
        rcases hrec j r with heq | ⟨hnone, t, hsome, hready⟩
        · rw [heq]
          exact hsettled
        · rw [hnone] at hsettled
          rw [hsome, settled_ready hready]
          exact hsettled
      · obtain ⟨t, ht, hat⟩ := hs.running run hrun
        refine ⟨t, ?_, hat⟩
        rcases hrec run.sessionId run.requestId with heq | ⟨hnone, _⟩
        · exact heq.trans ht
        · rw [hnone] at ht
          cases ht
      · rcases hrec j r with heq | ⟨hnone, t, hsome, hready⟩
        · exact .same heq rfl fun run' hruns => ⟨run', hruns⟩
        · exact .finished t hnone hsome hready rfl
  | outside objects disk =>
    exact ⟨hs.of_same (.refl _) rfl (.inl rfl), .of_same (.refl _) rfl (.inl rfl)⟩
  | undo id requestId idle =>
    simp only [step]
    rcases requestUndo_cases (h := h) id requestId idle with
      heq | ⟨hfree, run, t, heq, rfl, rfl, hstage, ht, hattach, hundo⟩
    · rw [heq]
      exact ⟨hs, .of_same (.refl _) rfl (.inl rfl)⟩
    · rw [heq]
      refine ⟨⟨hs.kept, hs.settled, fun run' hrun' => ?_⟩, fun i r => ?_⟩
      · obtain rfl := Option.some.inj hrun'
        refine ⟨t, ht, ?_⟩
        rw [hstage]
        exact ⟨hattach, hundo⟩
      · refine .same rfl rfl fun run' hruns => ?_
        obtain ⟨hrun', -, -, hint⟩ := hruns
        obtain rfl := Option.some.inj hrun'
        rw [hstage] at hint
        cases hint
  | advance fault now => exact advance_sound hs
  | restart now =>
    have hsame : h.store.SameTurns (h.store.step (.reopen, now)) :=
      Runs.attempt_keeps (fun _ => Store.reopen_same) (.refl _)
    exact ⟨hs.of_same hsame rfl (.inr rfl), .of_same hsame rfl (.inr rfl)⟩

theorem start_sound (projects : List Project) (objects : Objects) (disk : String → Disk) :
    Sound svc (start projects objects disk) := by
  refine ⟨fun row hrow => ?_, fun _ _ => rfl, fun run hrun => ?_⟩
  · cases hrow
  · cases hrun

theorem after_sound (hs : Sound svc h) (ops : List HostOp) : Sound svc (h.after svc ops) :=
  Runs.run_keeps hs (fun _ o hs => (step_sound hs o).1) ops

/-- An undo of this turn is over: the record says so, and no request has it under way. -/
def Closed (h : Host) (id requestId : String) : Prop :=
  (h.undoStatus id requestId = some .unknown ∨ h.undoStatus id requestId = some .reverted) ∧
    ∀ run, ¬h.Intends id requestId run

theorem undoStatus_eq {t : FrozenTurn} (ht : h.store.turnRecord id requestId = some t) :
    h.undoStatus id requestId = some t.changes.undo := by
  rw [undoStatus, ht, Option.map_some]

/-- A turn whose undo is over keeps its record and its effects. -/
theorem Closed.step (hc : h.Closed id requestId) {h' : Host} (hchange : Change h h' id requestId) :
    h'.Closed id requestId ∧ h'.store.turnRecord id requestId = h.store.turnRecord id requestId ∧
      h'.effects id requestId = h.effects id requestId := by
  obtain ⟨hstatus, hruns⟩ := hc
  cases hchange with
  | same record effects runs =>
    refine ⟨⟨?_, fun run' hrun' => ?_⟩, record, effects⟩
    · rwa [undoStatus, record]
    · obtain ⟨run, hrun⟩ := runs run' hrun'
      exact hruns run hrun
  | finished t before record undo effects => simp [undoStatus, before] at hstatus
  | intended t t' before ready record undo effects => simp [undoStatus, before, ready] at hstatus
  | wrote run path runs record effects => exact absurd runs (hruns run)
  | settled run t t' runs before unknown record undo effects => exact absurd runs (hruns run)

theorem Closed.after (hs : Sound svc h) (hc : h.Closed id requestId) (ops : List HostOp) :
    (h.after svc ops).store.turnRecord id requestId = h.store.turnRecord id requestId ∧
      (h.after svc ops).effects id requestId = h.effects id requestId := by
  have hall : Sound svc (h.after svc ops) ∧ (h.after svc ops).Closed id requestId ∧
      (h.after svc ops).store.turnRecord id requestId = h.store.turnRecord id requestId ∧
      (h.after svc ops).effects id requestId = h.effects id requestId := by
    refine Runs.run_keeps (P := fun g => Sound svc g ∧ g.Closed id requestId ∧
      g.store.turnRecord id requestId = h.store.turnRecord id requestId ∧
      g.effects id requestId = h.effects id requestId) ⟨hs, hc, rfl, rfl⟩ (fun g o hg => ?_) ops
    obtain ⟨hg, hc, hrecord, heffects⟩ := hg
    obtain ⟨hsound, hchange⟩ := step_sound hg o
    obtain ⟨hc', hrecord', heffects'⟩ := hc.step (hchange id requestId)
    exact ⟨hsound, hc', hrecord'.trans hrecord, heffects'.trans heffects⟩
  exact hall.2.2

/-- The status and the effects of a turn, one step on. -/
theorem Change.follows {h' : Host} (hchange : Change h h' id requestId) :
    Follows (h.undoStatus id requestId) (h'.undoStatus id requestId) ∧
      h.effects id requestId <+: h'.effects id requestId := by
  cases hchange with
  | same record effects runs =>
    rw [undoStatus, undoStatus, record, effects]
    exact ⟨.refl _, List.prefix_rfl⟩
  | finished t before record undo effects =>
    rw [undoStatus, before, undoStatus_eq record, undo, effects]
    exact ⟨trivial, List.prefix_rfl⟩
  | intended t t' before ready record undo effects =>
    rw [undoStatus_eq before, ready, undoStatus_eq record, undo, effects]
    exact ⟨trivial, List.prefix_append ..⟩
  | wrote run path runs record effects =>
    rw [undoStatus, undoStatus, record, effects]
    exact ⟨.refl _, List.prefix_append ..⟩
  | settled run t t' runs before unknown record undo effects =>
    rw [undoStatus_eq before, unknown, undoStatus_eq record, undo, effects]
    exact ⟨trivial, List.prefix_append ..⟩

/-- A turn that says it was reverted has no request that could add to it. -/
theorem not_intends_of_reverted (hs : Sound svc h)
    (hstatus : h.undoStatus id requestId = some .reverted) (run : UndoRun) :
    ¬h.Intends id requestId run := by
  rintro ⟨hrun, rfl, rfl, hint⟩
  obtain ⟨t, ht, hat⟩ := hs.running run hrun
  rw [undoStatus_eq ht] at hstatus
  have hreverted : t.changes.undo = .reverted := Option.some.inj hstatus
  rcases hstage : run.stage with _ | _ | _ | _ | _ | _ | _ <;> rw [hstage] at hat hint
  case validate | close | validateAgain | intend => cases hint
  case load | restore | settle =>
    obtain ⟨-, hunknown, -⟩ := hat
    rw [hunknown] at hreverted
    cases hreverted

theorem requestUndo_of_reverted (hstatus : h.undoStatus id requestId = some .reverted) (idle : Bool) :
    (h.requestUndo id requestId idle).1 = h := by
  rcases requestUndo_cases (h := h) id requestId idle with
    heq | ⟨-, run, t, -, rfl, rfl, -, ht, -, hundo⟩
  · exact heq
  · rw [undoStatus_eq ht] at hstatus
    exact absurd (Option.some.inj hstatus) hundo

theorem restorePath_elsewhere {t : FrozenTurn} {objects : Objects} {fault : Bool}
    {disk disk' : Disk} {path : String}
    (hr : t.restorePath svc objects fault disk path = .ok disk') {place : List String}
    (hne : place ≠ components path) : disk'.node place = disk.node place := by
  simp only [FrozenTurn.restorePath, bind_eq_ok] at hr
  obtain ⟨_, _, hr⟩ := hr
  split at hr <;> simp only [bind_eq_ok, Except.ok.injEq] at hr
  · obtain ⟨_, _, _, _, _, _, _, _, _, _, rfl⟩ := hr
    exact Disk.set_node_of_ne hne
  · obtain ⟨_, _, _, _, _, _, rfl⟩ := hr
    exact Disk.set_node_of_ne hne

/-- Of the server's own steps, only the restoring of a path changes a disk, and only there. -/
theorem step_disk (hs : Sound svc h) (o : HostOp) (ho : ∀ objects disk, o ≠ .outside objects disk) :
    (h.step svc o).disk = h.disk ∨ ∃ run path disk, h.undo = some run ∧
      run.stage.intended = true ∧ (h.step svc o).marks = h.marks ++ [run.mark (.wrote path)] ∧
      (h.step svc o).disk = Function.update h.disk run.root disk ∧
      ∀ place, place ≠ components path → disk.node place = (h.disk run.root).node place := by
  cases o with
  | database o ho now => exact .inl rfl
  | finishTurn id after i b now =>
    simp only [step]
    split <;> exact .inl rfl
  | outside objects disk => exact absurd rfl (ho objects disk)
  | undo id requestId idle =>
    simp only [step]
    rcases requestUndo_cases (h := h) id requestId idle with heq | ⟨_, _, _, heq, _⟩ <;> rw [heq] <;>
      exact .inl rfl
  | restart now => exact .inl rfl
  | advance fault now =>
    simp only [step]
    rcases hundo : h.undo with _ | run
    · exact .inl (by simp only [advance, hundo])
    obtain ⟨t, ht, hat⟩ := hs.running run hundo
    have hrequest : run.turn.changes.requestId = run.requestId := by
      rw [hat.changes]
      exact Store.turnRecord_requestId hs.kept ht
    rcases advance_cases hundo svc fault now with
      ⟨undo, hadv, -⟩ | ⟨-, g, run', hst, hadv⟩ |
      ⟨loaded, path, todo, disk, hstage, hdisk, hadv⟩ | ⟨-, g, run', hst, hadv⟩
    · rw [hadv]
      exact .inl rfl
    · obtain ⟨-, -, -, -, hdisk, -⟩ := storeUndo_cases hs ht hrequest hst
      rw [hadv]
      exact .inl hdisk
    · rw [hadv]
      exact .inr ⟨run, path, disk, rfl, by rw [hstage]; rfl, rfl, rfl,
        fun place hne => restorePath_elsewhere hdisk hne⟩
    · obtain ⟨-, -, -, -, hdisk, -⟩ := storeUndo_cases hs ht hrequest hst
      rw [hadv]
      exact .inl hdisk

/-- In every state of every run, over all requests, failures, restarts, and whatever else happens
between them: the effects on a turn are those its record tells; its status only moves from ready
over unknown to reverted, and the disk changes only where a path of a turn at unknown is put back;
a turn whose undo ended at unknown, or is reverted, keeps record and effects for good; and a
request for a reverted turn changes nothing. -/
theorem undo_protocol (svc : Services) (projects : List Project) (objects : Objects)
    (disk : String → Disk) (ops : List HostOp) (id requestId : String) :
    let h := (start projects objects disk).after svc ops
    Settled svc (h.effects id requestId) (h.store.turnRecord id requestId) ∧
    (∀ o, Follows (h.undoStatus id requestId) ((h.step svc o).undoStatus id requestId) ∧
      h.effects id requestId <+: (h.step svc o).effects id requestId) ∧
    (∀ o, (∀ objects disk, o ≠ .outside objects disk) →
      (h.step svc o).disk = h.disk ∨ ∃ run path disk, h.undo = some run ∧
        run.stage.intended = true ∧ h.undoStatus run.sessionId run.requestId = some .unknown ∧
        (h.step svc o).marks = h.marks ++ [run.mark (.wrote path)] ∧
        (h.step svc o).disk = Function.update h.disk run.root disk ∧
        ∀ place, place ≠ components path → disk.node place = (h.disk run.root).node place) ∧
    ((h.undoStatus id requestId = some .unknown ∧ (∀ run, ¬h.Intends id requestId run) ∨
        h.undoStatus id requestId = some .reverted) → ∀ more,
      (h.after svc more).store.turnRecord id requestId = h.store.turnRecord id requestId ∧
        (h.after svc more).effects id requestId = h.effects id requestId) ∧
    (h.undoStatus id requestId = some .reverted → ∀ idle,
      h.step svc (.undo id requestId idle) = h) := by
  intro h
  have hs : Sound svc h := after_sound (start_sound projects objects disk) ops
  refine ⟨hs.settled id requestId, fun o => ?_, fun o ho => ?_, fun hover more => ?_,
    fun hstatus idle => requestUndo_of_reverted hstatus idle⟩
  · exact ((step_sound hs o).2 id requestId).follows
  · rcases step_disk hs o ho with heq | ⟨run, path, d, hrun, hint, hrest⟩
    · exact .inl heq
    · obtain ⟨t, ht, hat⟩ := hs.running run hrun
      refine .inr ⟨run, path, d, hrun, hint, ?_, hrest⟩
      rw [undoStatus_eq ht]
      rcases hstage : run.stage with _ | _ | _ | _ | _ | _ | _ <;> rw [hstage] at hat hint
      case validate | close | validateAgain | intend => cases hint
      case load | restore | settle => rw [hat.2.1]
  · refine Closed.after hs ?_ more
    rcases hover with ⟨hstatus, hruns⟩ | hstatus
    · exact ⟨.inl hstatus, hruns⟩
    · exact ⟨.inr hstatus, not_intends_of_reverted hs hstatus⟩

/-- A turn is undone: the request arrives, and takes its eight steps. -/
example :
    let begun : List HostOp := [
      .database (.createSession "s" "p" "claude") rfl 1,
      .database (.begin "s" { requestId := "r", text := "t", model := none, effort := none
                              fingerprint := none, permissionMode := none }) rfl 1,
      .database (.saveTurnBaseline "s" "r" (oneFile 1 shaOfA)) rfl 1,
      .finishTurn "s" (oneFile 2 shaOfB) false false 2,
      .database (.state "s" .completed none) rfl 2,
      .undo "s" "r" true]
    let h := (start [{ id := "p", name := "p", path := "/p" }] contentObjects
      fun _ => editedDisk true).after editServices (begun ++ List.replicate 8 (.advance false 3))
    h.effects "s" "r" = [.stored .unknown, .wrote "d/f", .stored .reverted] ∧
      h.undoStatus "s" "r" = some .reverted := by
  decide +kernel

end Host

end LatteWork
