import LatteWork.Workbench.Resources
import LatteWork.Workbench.Transcript

/-!
# Task information

What the side bar shows of a task: its files, links, tools, skills and to-dos, taken from the events
of the session. A reader keeps what it made of the events it was given, and goes on from there when
it is given more of them.
-/

namespace LatteWork

namespace TaskInfo

open Resources

structure InfoFile where
  path : String
  name : String
  directory : Bool
  deriving DecidableEq, Repr, Inhabited

structure InfoLink where
  url : String
  title : String
  deriving DecidableEq, Repr, Inhabited

inductive InfoResource where
  | file (file : InfoFile)
  | link (link : InfoLink)
  deriving DecidableEq, Repr, Inhabited

structure InfoTodo where
  id : String
  title : String
  status : String
  deriving DecidableEq, Repr, Inhabited

section Map

variable {β : Type}

/-- `Map.prototype.has`. -/
def has (map : List (String × β)) (key : String) : Bool := map.any (·.1 = key)

/-- `Map.prototype.set`: a key that is there keeps its place. -/
def set (map : List (String × β)) (key : String) (v : β) : List (String × β) :=
  if has map key then map.map fun p => if p.1 = key then (key, v) else p else map ++ [(key, v)]

/-- A map takes no more than 129 entries, one more than is shown. -/
def setBounded (map : List (String × β)) (key : String) (v : β) : List (String × β) :=
  if map.length < 129 ∨ has map key then set map key v else map

def count (map : List (String × ℕ)) (key : String) : List (String × ℕ) :=
  set map key ((map.lookup key).getD 0 + 1)

end Map

/-- `newState`. -/
structure State where
  links : List (String × InfoLink) := []
  files : List (String × InfoFile) := []
  products : List (String × InfoResource) := []
  resources : List (String × InfoResource) := []
  skills : List (String × ℕ) := []
  tools : List (String × ℕ) := []
  calls : List (String × String × Json) := []
  results : List String := []
  todos : List (String × InfoTodo) := []
  deriving Inhabited

/-- The first string that is not empty. -/
def firstOf : List String → String
  | [] => ""
  | s :: rest => if s ≠ "" then s else firstOf rest

section

variable (parse : String → Option Resources.Url) (project : Option String)

/-- A path without the project before it. -/
def relative (path : List Char) : List Char :=
  match project with
  | none => path
  | some project =>
    let root := project.toList
    let root := if root.getLast? = some '/' then root.dropLast else root
    if project ≠ "" ∧ (root ++ ['/']).isPrefixOf path then path.drop (root.length + 1) else path

/-- `file`. -/
def file (st : State) (call : FileCall) : State :=
  match artifactPath call.value with
  | none => st
  | some path =>
    let path := relative project path
    if path = [] ∨ isTaskResourceFile path call.directory call.attachmentName = false then st
    else
      let path := String.ofList (if ['.', '/'].isPrefixOf path then path.drop 2 else path)
      let name := firstOf [String.ofList call.title, ((st.files.lookup path).map (·.name)).getD "",
        String.ofList (lastPart '/' path.toList), path]
      let entry : InfoFile := { path, name, directory := call.directory }
      let key := "file:" ++ path
      let files := setBounded st.files path entry
      let resources :=
        if call.product then st.resources.filter fun p => p.1 ≠ key else st.resources
      if call.product ∨ has st.products key then
        { st with files, resources, products := setBounded st.products key (.file entry) }
      else { st with files, resources := setBounded resources key (.file entry) }

/-- `link`. -/
def link (st : State) (value title : List Char) : State :=
  match webLink parse (String.ofList value) with
  | none => st
  | some url =>
    if url ≠ "" ∧ (st.links.length < 129 ∨ has st.links url) then
      let entry : InfoLink :=
        { url, title := firstOf [String.ofList title, ((st.links.lookup url).map (·.title)).getD "", url] }
      { st with
        links := set st.links url entry
        resources := setBounded st.resources ("link:" ++ url) (.link entry) }
    else st

/-- What `scan` does with one of its finds. -/
def take (st : State) : Found → State
  | .link value title => link parse st value title
  | .file call => file project st call

/-- `scan`. -/
def scan (st : State) (body : List Char) (user : Bool) : State :=
  if user then
    let parsed := referenceMessage (String.ofList body)
    let st := parsed.references.foldl (fun st entry =>
      file project st { value := entry.path.toList, title := entry.name.toList
                        directory := entry.directory, attachmentName := entry.name.toList }) st
    (found parse parsed.text).foldl (take parse project) st
  else (found parse body).foldl (take parse project) st

end

/-- `text`. -/
def text (value : Option Json) : String := (value.bind Json.str?).getD ""

def statuses : List String := ["pending", "in_progress", "completed"]

/-- The to-dos of a `TodoWrite`, each under its number. -/
def writtenTodos : ℕ → List Json → List InfoTodo
  | _, [] => []
  | i, todo :: rest =>
    let title := text (todo.get? "content")
    let status := text (todo.get? "status")
    if title ≠ "" ∧ status ∈ statuses then
      { id := "todo:" ++ toString i, title, status } :: writtenTodos (i + 1) rest
    else writtenTodos (i + 1) rest

/-- `/Task #(\d+) created successfully/`. -/
def createdTask : List Char → String
  | [] => ""
  | c :: rest =>
    let behind := (c :: rest).drop "Task #".length
    let number := behind.takeWhile Char.isDigit
    if "Task #".toList.isPrefixOf (c :: rest) ∧ number ≠ [] ∧
        " created successfully".toList.isPrefixOf (behind.dropWhile Char.isDigit) then
      String.ofList number
    else createdTask rest

/-- The text of a tool's result. -/
def contentText : Json → String
  | .str s => s
  | .arr parts => String.intercalate "\n" (parts.map fun part => text (part.get? "text"))
  | _ => ""

/-- What the result of a call of this tool tells of the to-dos. -/
def resultTodos (todos : List (String × InfoTodo)) (name : String) (input content : Json) :
    List (String × InfoTodo) :=
  if name = "TodoWrite" then
    match input.get? "todos" with
    | some (.arr items) =>
      (writtenTodos 0 items).foldl (fun todos todo => set todos todo.id todo)
        (todos.filter fun p => !"todo:".toList.isPrefixOf p.1.toList)
    | _ => todos
  else if name = "TaskCreate" then
    let id := firstOf [text (content.get? "taskId"), text ((content.get? "task").bind (·.get? "id")),
      createdTask (contentText content).toList]
    let title := text (input.get? "subject")
    if id ≠ "" ∧ title ≠ "" then set todos id { id, title, status := "pending" } else todos
  else if name = "TaskUpdate" then
    let id := text (input.get? "taskId")
    let status := text (input.get? "status")
    if status = "deleted" then todos.filter fun p => p.1 ≠ id
    else
      match todos.lookup id with
      | none => todos
      | some old =>
        set todos id { old with
          title := firstOf [text (input.get? "subject"), old.title]
          status := if status ∈ statuses then status else old.status }
  else todos

/-- The file that a call of this tool is about, and whether the tool wrote it. -/
def resultFile (name : String) (input : Json) : Option (String × Bool) :=
  if name ∈ ["Write", "Edit", "MultiEdit", "NotebookEdit"] then
    some (firstOf [text (input.get? "file_path"), text (input.get? "notebook_path")], true)
  else if name = "Read" then some (text (input.get? "file_path"), false)
  else none

inductive BodyKind where
  | none | text | user
  deriving DecidableEq, Repr, Inhabited

/-- `collector`: what it has of the events, and the text that may go on. -/
structure Collector where
  project : Option String := none
  state : State := {}
  body : List Char := []
  bodyKind : BodyKind := .none
  deriving Inhabited

/-- What `snapshot` shows. -/
structure Shown where
  products : List InfoResource
  resources : List InfoResource
  todos : List InfoTodo
  skills : List (String × ℕ)
  tools : List (String × ℕ)
  links : List InfoLink
  files : List InfoFile
  truncated : Bool
  deriving DecidableEq, Repr, Inhabited

def State.shown (st : State) : Shown where
  products := (st.products.map (·.2)).take 128
  resources := (st.resources.map (·.2)).take 128
  todos := (st.todos.map (·.2)).take 128
  skills := st.skills.take 128
  tools := st.tools.take 128
  links := (st.links.map (·.2)).take 128
  files := (st.files.map (·.2)).take 128
  truncated := [st.todos.length, st.skills.length, st.tools.length, st.links.length, st.files.length,
    st.products.length, st.resources.length].any fun n => 128 < n

namespace Collector

variable (parse : String → Option Resources.Url)

/-- `flush`. -/
def flush (c : Collector) : Collector :=
  if c.body ≠ [] then
    { c with state := scan parse c.project c.state c.body (c.bodyKind = .user), body := [] }
  else c

/-- What `append` does with a text. -/
def say (c : Collector) (kind : BodyKind) (text : String) : Collector :=
  let c := if kind ≠ c.bodyKind ∨ kind = .user then c.flush parse else c
  { c with bodyKind := kind, body := c.body ++ text.toList }

/-- What `append` does with any other event. -/
def record (project : Option String) (st : State) : EventKind → State
  | .tool id name input =>
    if has st.calls id then st
    else
      let st := { st with calls := set st.calls id (name, input), tools := count st.tools name }
      let skill := text (input.get? "skill")
      if name = "Skill" ∧ skill ≠ "" then { st with skills := count st.skills skill } else st
  | .toolResult id content isError =>
    if id ∈ st.results then st
    else
      let st := { st with results := id :: st.results }
      match st.calls.lookup id with
      | none => st
      | some (name, input) =>
        if isError then st
        else
          let st := { st with todos := resultTodos st.todos name input content }
          match resultFile name input with
          | none => st
          | some (path, product) =>
            if path ≠ "" then file project st { value := path.toList, product } else st
  | .turnChanges changes =>
    (changes.summary.entries.filter fun e => e.status ≠ "D" ∧ e.status ≠ "deleted").foldl
      (fun st e => file project st { value := e.path.toList, product := true }) st
  | _ => st

/-- `append`. -/
def append (c : Collector) (event : EventKind) : Collector :=
  match event with
  | .text text => c.say parse .text text
  | .user text _ => c.say parse .user text
  | .queuedMessageSent text _ => c.say parse .user text
  | event =>
    let c := c.flush parse
    { c with state := record c.project c.state event }

/-- `snapshot`: with a text that may go on as if it did not, or without it. The collector that scans
such a text has four maps of its own, and shares the others. -/
def snapshot (c : Collector) (includePending : Bool) : Shown × Collector :=
  if c.body = [] ∨ includePending = false then (c.state.shown, c)
  else
    let visible := scan parse c.project c.state c.body (c.bodyKind = .user)
    (visible.shown, { c with
      state := { visible with
        links := c.state.links
        files := c.state.files
        products := c.state.products
        resources := c.state.resources } })

end Collector

/-- The arguments of a reader. An event is known by where it lies. -/
structure Call where
  events : List ℕ
  sessionId : Option String
  projectPath : Option String
  includePending : Bool := true
  deriving DecidableEq, Repr, Inhabited

/-- `createTaskInfoReader`: what it keeps between calls. -/
structure Reader where
  previous : List ℕ := []
  context : Option (Option String × Option String) := none
  model : Collector := {}
  deriving Inhabited

/-- The events of a session in their order, which are sorted where they are not. `heap` has the event
at each place. -/
def ordered (heap : ℕ → Event) (call : Call) : List ℕ :=
  (call.events.filter fun i => some (heap i).sessionId = call.sessionId).insertionSort fun i j =>
    (heap i).seq ≤ (heap j).seq

namespace Reader

variable (parse : String → Option Resources.Url) (heap : ℕ → Event)

/-- A reader that goes on from what it has, if the events it was given are still the first ones. -/
def resume (r : Reader) (call : Call) : Reader :=
  if r.context ≠ some (call.sessionId, call.projectPath) ∨
      (r.previous.isPrefixOf (ordered heap call)) = false then
    { previous := [], context := some (call.sessionId, call.projectPath)
      model := { project := call.projectPath } }
  else r

/-- A call of the reader. -/
def read (r : Reader) (call : Call) : Shown × Reader :=
  let r := r.resume heap call
  let events := ordered heap call
  let model := (events.drop r.previous.length).foldl
    (fun model i => model.append parse (heap i).event) r.model
  let (shown, model) := model.snapshot parse call.includePending
  (shown, { r with previous := events, model })

/-- What the calls of one reader give, one after the other. -/
def readAll (r : Reader) : List Call → List Shown
  | [] => []
  | call :: calls => (r.read parse heap call).1 :: readAll (r.read parse heap call).2 calls

end Reader

/-- `taskInfo`. -/
def taskInfo (parse : String → Option Resources.Url) (heap : ℕ → Event) (events : List ℕ)
    (sessionId projectPath : Option String) : Shown :=
  (({} : Reader).read parse heap { events, sessionId, projectPath }).1

end TaskInfo

end LatteWork
