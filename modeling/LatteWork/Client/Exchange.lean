import LatteWork.Client.Requests
import LatteWork.Lib.Fields
import LatteWork.Lib.Runs

/-!
# Exchanges over one connection

Any number of calls share a client: each holds it for one exchange, from its request to the response,
and may be cancelled wherever it waits. Requests and responses are matched by their order only, so a
client whose exchange did not end with a response is broken.
-/

namespace LatteWork

namespace Client

/-- `serde_json`, both ways. -/
structure Codec where
  encode : Request → Except String (List UInt8)
  decode : List UInt8 → Except String Response

def lineFeed : UInt8 := 10

/-- Where an exchange waits: with bytes to write, for the flush, or for the response. -/
inductive Stage where
  | writing (rest : List UInt8)
  | flushing
  | reading
  deriving DecidableEq, Repr, Inhabited

/-- A call: between two exchanges, within one, or dropped. -/
inductive Task where
  | ready (script : Script)
  | exchanging (id : ℕ) (stage : Stage) (next : Except String Response → Script)
  | cancelled
  deriving Inhabited

/-- An exchange that got a response, with the number of the line that it came on. -/
structure Returned where
  id : ℕ
  line : ℕ
  response : Response

/-- The client, the calls that share it and the bridge, with what the exchanges have done: who began
which, in which order their lines were written, and how they ended. -/
structure State (τ : Type) where
  permissionSettings : Bool
  broken : Bool := false
  holder : Option τ := none
  tasks : τ → Task
  sent : List UInt8 := []
  answers : List (List UInt8) := []
  taken : ℕ := 0
  begun : List (τ × Request) := []
  wrote : List ℕ := []
  returned : List Returned := []
  failed : List ℕ := []

/-- The lines that the bridge has read. -/
def bridgeLines (sent : List UInt8) : List (List UInt8) := (sent.splitOn lineFeed).dropLast

/-- A permission mode, for a server that does not know it. -/
def refused (permissionSettings : Bool) : Request → Bool
  | .send fields | .sendQueued fields => fields.permissionMode.isSome && !permissionSettings
  | _ => false

inductive Label (τ : Type) where
  | acquire (t : τ)
  | write (t : τ) (n : ℕ)
  | flush (t : τ)
  | read (t : τ)
  | fail (t : τ) (message : String)
  | cancel (t : τ)
  | resolve (t : τ) (provider : Except String (Option ProviderSnapshot))
  | answer (text : List UInt8)

namespace State

variable {τ : Type} [DecidableEq τ]

def setTask (s : State τ) (t : τ) (task : Task) : State τ :=
  { s with tasks := fun u => if u = t then task else s.tasks u }

/-- An exchange ends without a response. The client stays broken. -/
def abandon (s : State τ) (t : τ) (id : ℕ) (task : Task) : State τ :=
  { s with holder := none, failed := s.failed ++ [id] }.setTask t task

/-- `exchange`, up to where it waits first. -/
def begin (c : Codec) (s : State τ) (t : τ) (request : Request)
    (next : Except String Response → Script) : State τ :=
  let id := s.begun.length
  let s := { s with broken := true, begun := s.begun ++ [(t, request)] }
  match c.encode request with
  | .error e => s.abandon t id (.ready (next (.error e)))
  | .ok data =>
    if maxFrame < data.length then s.abandon t id (.ready (next (.error "请求过大")))
    else
      { s with holder := some t }.setTask t (.exchanging id (.writing (data ++ [lineFeed])) next)

/-- `request`, by a call that has the client. -/
def request (c : Codec) (s : State τ) (t : τ) (request : Request)
    (next : Except String Response → Script) : State τ :=
  if s.broken then
    s.setTask t (.ready (next (.error "连接已失效，请重新连接；任务不会自动重发")))
  else if refused s.permissionSettings request then
    s.setTask t (.ready (next (.error
      "此 Server 不支持权限设置，请更新 Server 后重新连接；任务未发送")))
  else s.begin c t request next

/-- Some bytes of a line are written. -/
def write (s : State τ) (t : τ) (id : ℕ) (rest : List UInt8) (n : ℕ)
    (next : Except String Response → Script) : State τ :=
  let s := { s with sent := s.sent ++ rest.take n }
  if rest.length ≤ n then
    { s with wrote := s.wrote ++ [id] }.setTask t (.exchanging id .flushing next)
  else s.setTask t (.exchanging id (.writing (rest.drop n)) next)

/-- The next line of the bridge is read. -/
def read (c : Codec) (s : State τ) (t : τ) (id : ℕ) (text : List UInt8)
    (next : Except String Response → Script) : State τ :=
  let line := s.taken
  let s := { s with taken := s.taken + 1 }
  if maxFrame < text.length then s.abandon t id (.ready (next (.error "max line length exceeded")))
  else
    match c.decode text with
    | .error e => s.abandon t id (.ready (next (.error e)))
    | .ok response =>
      let s : State τ :=
        { s with broken := false, holder := none, returned := s.returned ++ [⟨id, line, response⟩] }
      s.setTask t (.ready (next (.ok response)))

/-- One step of a call or of the bridge. What is not possible does nothing. -/
def step (c : Codec) (s : State τ) : Label τ → State τ
  | .acquire t =>
    match s.holder, s.tasks t with
    | none, .ready (.request request next) => s.request c t request next
    | _, _ => s
  | .write t n =>
    match s.tasks t with
    | .exchanging id (.writing rest) next => s.write t id rest n next
    | _ => s
  | .flush t =>
    match s.tasks t with
    | .exchanging id .flushing next => s.setTask t (.exchanging id .reading next)
    | _ => s
  | .read t =>
    match s.tasks t, s.answers[s.taken]? with
    | .exchanging id .reading next, some text => s.read c t id text next
    | _, _ => s
  | .fail t message =>
    match s.tasks t with
    | .exchanging id _ next => s.abandon t id (.ready (next (.error message)))
    | _ => s
  | .cancel t =>
    match s.tasks t with
    | .exchanging id _ _ => s.abandon t id .cancelled
    | .ready _ => s.setTask t .cancelled
    | .cancelled => s
  | .resolve t provider =>
    match s.tasks t with
    | .ready (.resolve _ next) => s.setTask t (.ready (next provider))
    | _ => s
  | .answer text =>
    if s.answers.length < (bridgeLines s.sent).length ∧ lineFeed ∉ text then
      { s with answers := s.answers ++ [text] }
    else s

/-- The calls before anything is sent. -/
def start (permissionSettings : Bool) (calls : τ → Script) : State τ :=
  { permissionSettings, tasks := fun t => .ready (calls t) }

def run (c : Codec) (s : State τ) (labels : List (Label τ)) : State τ :=
  Runs.run (step c) s labels

end State

end Client

end LatteWork
