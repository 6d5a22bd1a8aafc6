import LatteWork.Snapshot.Frozen
import LatteWork.Store.Turns

/-!
# The end of a turn

What the runtime does when a turn is over, however it ended: capture the worktree, compare it with
the baseline of the turn, and keep the result.
-/

namespace LatteWork

open Fallible

/-- `FrozenTurn::freeze`, and the placeholder for a turn that could not be compared. -/
def FrozenTurn.freezeOr (svc : Services) (objects : Objects) (requestId : String)
    (before after : Snapshot) (interrupted backgroundPending : Bool) (now : ℕ) :
    Except String (FrozenTurn × Objects) :=
  match freezeInner svc objects requestId before after interrupted backgroundPending with
  | .ok frozen => .ok frozen
  | .error e =>
    freezeInner svc objects requestId (.ofUnavailable now e) (.ofUnavailable now e) interrupted
      backgroundPending

/-- `finish_turn` of the runtime. `after` is the worktree as it was captured, or the placeholder of
a capture that failed. -/
def finishTurn (svc : Services) (objects : Objects) (s : Store) (id : String) (after : Snapshot)
    (interrupted backgroundPending : Bool) (now : ℕ) : Except String (Store × Objects) :=
  match s.pendingTurn id with
  | none => .ok (s, objects)
  | some (requestId, before) => do
    let (turn, objects) ← FrozenTurn.freezeOr svc objects requestId before.attach after interrupted
      backgroundPending now
    let s ← s.finishTurn id turn now
    .ok (s, objects)

end LatteWork
