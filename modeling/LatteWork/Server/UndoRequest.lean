import LatteWork.Server.Turns
import LatteWork.Snapshot.Undo
import LatteWork.Store.Operations

/-!
# Undo requests

The server while it answers `UndoTurnChanges`. The request holds `file_admission` from its first
check to its durable result, so there is one such request at a time; between any two of its steps
other handlers write to the database, programs change the disk, and the process may end.
-/

namespace LatteWork

open Fallible

/-- What outlives the process: an undo status in the database, a restored path on the disk. -/
inductive Effect where
  | stored (status : TurnUndoStatus)
  | wrote (path : String)
  deriving DecidableEq, Repr

structure Mark where
  sessionId : String
  requestId : String
  effect : Effect
  deriving DecidableEq, Repr

/-- The step of `UndoTurnChanges` that comes next. -/
inductive UndoStage where
  | validate
  | close
  | validateAgain
  | intend
  | load
  | restore (loaded : FrozenTurn) (todo : List String)
  | settle

/-- The intent is in the database. -/
def UndoStage.intended : UndoStage → Bool
  | load | restore .. | settle => true
  | _ => false

/-- The request that holds `file_admission`. -/
structure UndoRun where
  sessionId : String
  requestId : String
  root : String
  turn : FrozenTurn
  stage : UndoStage := .validate

def UndoRun.mark (run : UndoRun) (effect : Effect) : Mark :=
  { sessionId := run.sessionId, requestId := run.requestId, effect }

/-- A server, as far as undo reaches. `disk` maps the path of a project to what is there, and
`marks` are the effects of all undo requests so far. -/
structure Host where
  store : Store
  objects : Objects
  disk : String → Disk
  undo : Option UndoRun := none
  marks : List Mark := []

namespace Host

/-- The checks of `UndoTurnChanges` before anything is validated. A turn that is reverted already
is answered at once. `idle` tells whether no agent, no background task and no terminal runs. -/
def admitUndo (h : Host) (id requestId : String) (idle : Bool) :
    Except String (TurnChanges ⊕ UndoRun) := do
  let record ← h.store.turnChangesOf id requestId
  let turn := record.attach
  if turn.changes.undo = .reverted then .ok (.inl turn.changes)
  else do
    let latest ← h.store.latestRequest id
    bailIf (latest ≠ requestId) "只能撤销此会话最近一轮的修改，请查看历史 diff 后手动调整"
    bailIf (h.store.hasActiveSessions ∨ ¬idle)
      "此主机仍有运行任务、后台 Agent 或终端；请结束后再撤销"
    let session ← h.store.session id
    let project ← h.store.project session.projectId
    .ok (.inr { sessionId := id, requestId, root := project.path, turn })

/-- The arrival of a request, and its answer when there is one already. It waits while another one
holds `file_admission`. -/
def requestUndo (h : Host) (id requestId : String) (idle : Bool) :
    Host × Option (Except String TurnChanges) :=
  if h.undo.isSome then (h, none)
  else match h.admitUndo id requestId idle with
    | .error e => (h, some (.error e))
    | .ok (.inl changes) => (h, some (.ok changes))
    | .ok (.inr run) => ({ h with undo := some run }, none)

/-- Store the turn of a request with an undo status. -/
def storeUndo (h : Host) (run : UndoRun) (status : TurnUndoStatus) (now : ℕ) :
    Except String (Host × UndoRun) := do
  let turn := run.turn.mark status
  let store ← h.store.updateTurn run.sessionId turn now
  .ok ({ h with store, marks := h.marks ++ [run.mark (.stored status)] }, { run with turn })

/-- One step of a request, with the server after it, and the request unless it is done. `fault` is
a failure of whatever the step calls. -/
def undoStep (svc : Services) (h : Host) (run : UndoRun) (fault : Bool) (now : ℕ) :
    Except String (Host × Option UndoRun) :=
  match run.stage with
  | .validate => do
    bailIf fault ioError
    run.turn.validateUndo svc h.objects (h.disk run.root)
    .ok (h, some { run with stage := .close })
  | .close => do
    bailIf fault "关闭 Agent 会话超时"
    .ok (h, some { run with stage := .validateAgain })
  | .validateAgain => do
    bailIf fault ioError
    run.turn.validateUndo svc h.objects (h.disk run.root)
    .ok (h, some { run with stage := .intend })
  | .intend => do
    bailIf fault ioError
    let (h, run) ← h.storeUndo run .unknown now
    .ok (h, some { run with stage := .load })
  | .load => do
    bailIf fault ioError
    let loaded ← run.turn.materialized svc h.objects
    let todo := loaded.changes.summary.entries.map (·.path)
    .ok (h, some { run with stage := .restore loaded todo })
  | .restore _ [] => .ok (h, some { run with stage := .settle })
  | .restore loaded (path :: todo) => do
    let disk ← loaded.restorePath svc h.objects fault (h.disk run.root) path
    .ok ({ h with
      disk := Function.update h.disk run.root disk
      marks := h.marks ++ [run.mark (.wrote path)] },
      some { run with stage := .restore loaded todo })
  | .settle => do
    bailIf fault ioError
    let (h, _) ← h.storeUndo run .reverted now
    .ok (h, none)

/-- The next step of the request, if there is one. One that fails ends the request. -/
def advance (svc : Services) (h : Host) (fault : Bool) (now : ℕ) : Host :=
  match h.undo with
  | none => h
  | some run => match undoStep svc h run fault now with
    | .error _ => { h with undo := none }
    | .ok (h, undo) => { h with undo }

end Host

/-- What happens to a server. -/
inductive HostOp where
  | database (o : StoreOp) (h : o.ofTurns = false) (now : ℕ)
  | finishTurn (id : String) (after : Snapshot) (interrupted backgroundPending : Bool) (now : ℕ)
  | outside (objects : Objects) (disk : String → Disk)
  | undo (id requestId : String) (idle : Bool)
  | advance (fault : Bool) (now : ℕ)
  | restart (now : ℕ)

namespace Host

/-- A restart ends the request wherever it stands, and opens the database. -/
def restart (h : Host) (now : ℕ) : Host :=
  { h with undo := none, store := h.store.step (.reopen, now) }

def step (svc : Services) (h : Host) : HostOp → Host
  | .database o _ now => { h with store := h.store.step (o, now) }
  | .finishTurn id after interrupted backgroundPending now =>
    match LatteWork.finishTurn svc h.objects h.store id after interrupted backgroundPending now with
    | .error _ => h
    | .ok (store, objects) => { h with store, objects }
  | .outside objects disk => { h with objects, disk }
  | .undo id requestId idle => (h.requestUndo id requestId idle).1
  | .advance fault now => h.advance svc fault now
  | .restart now => h.restart now

/-- A server that starts with projects and an empty database. -/
def start (projects : List Project) (objects : Objects) (disk : String → Disk) : Host :=
  { store := Store.empty projects, objects, disk }

/-- The server after the operations, in order. -/
def after (svc : Services) (h : Host) (ops : List HostOp) : Host := Runs.run (step svc) h ops

/-- The effects on one turn, in order. -/
def effects (h : Host) (id requestId : String) : List Effect :=
  (h.marks.filter fun m => m.sessionId = id ∧ m.requestId = requestId).map (·.effect)

/-- The undo status of a turn in the database. -/
def undoStatus (h : Host) (id requestId : String) : Option TurnUndoStatus :=
  (h.store.turnRecord id requestId).map (·.changes.undo)

end Host

end LatteWork
