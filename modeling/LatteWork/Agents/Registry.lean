import LatteWork.Agents.Claude
import LatteWork.Agents.Traex

/-!
# The agents of a host

The adapter of a session is chosen by the name of its agent.
-/

namespace LatteWork

/-- The adapter of a running agent. -/
inductive Agent where
  | claude (a : Claude)
  | traex (a : Traex)

namespace Agent

/-- `create`. The arguments before the session are what Traex is started with. -/
def create (instructions uuid cwd : String) (session : Session) (config : LaunchConfig) :
    Except String Agent :=
  if session.agent = "claude" then (Claude.create session config).map claude
  else if session.agent = "traex" then (Traex.create instructions uuid cwd session config).map traex
  else .error ("此 Agent 尚未实现：" ++ session.agent)

def canReconfigure : Agent → Bool
  | claude a => a.canReconfigure
  | traex a => a.canReconfigure

def canStartTurn : Agent → Bool
  | claude a => a.canStartTurn
  | traex a => a.canStartTurn

def hasBackgroundWork : Agent → Bool
  | claude a => a.hasBackgroundWork
  | traex a => a.hasBackgroundWork

def advance (agent : Agent) (input : Input) : Except String (List Action) × Agent :=
  match agent with
  | claude a => ((Claude.advance input a).1, claude (Claude.advance input a).2)
  | traex a => ((Traex.advance input a).1, traex (Traex.advance input a).2)

def adapter (instructions uuid cwd : String) : AgentAdapter Agent where
  create := create instructions uuid cwd
  canReconfigure := canReconfigure
  canStartTurn := canStartTurn
  hasBackgroundWork := hasBackgroundWork
  advance := advance

end Agent

end LatteWork
