import LatteWork.Lib.Program
import LatteWork.Lib.Runs
import LatteWork.Workbench.Resources
import LatteWork.Workbench.TaskInfo
import Mathlib.Data.Rat.Lemmas

/-!
# The workspace beside a conversation

Each conversation has a row of tabs, kept in memory and written to the storage of the browser whenever
it changes. What was written is read again by the next process, which drops every tab that it does not
recognise. A tab is the JavaScript object that it is, without the fields that are `undefined`.
-/

namespace LatteWork

namespace Workspace

open Fallible (orError)

/-- A number, as the text it prints. -/
structure Number where
  text : String
  isNumber : Json.isNumber text.toList = true
  deriving DecidableEq

/-- The value of a number's text. -/
def decimalValue (text : String) : ℚ :=
  let chars := text.toList
  let negative := chars.head? = some '-'
  let chars := if negative then chars.tail else chars
  let mantissa := chars.takeWhile fun c => c ≠ 'e' && c ≠ 'E'
  let exponent := (chars.dropWhile fun c => c ≠ 'e' && c ≠ 'E').tail
  let digits := mantissa.filter Char.isDigit
  let behind := (mantissa.dropWhile (· ≠ '.')).tail.length
  let whole := (digits.foldl (fun n c => 10 * n + (c.toNat - 48)) 0 : ℕ)
  let size := ((exponent.filter Char.isDigit).foldl (fun n c => 10 * n + (c.toNat - 48)) 0 : ℕ)
  let scaled : ℚ :=
    if exponent.head? = some '-' then whole / 10 ^ (size + behind) else whole * 10 ^ size / 10 ^ behind
  if negative then -scaled else scaled

structure FileEntry where
  name : String
  path : String
  directory : Bool
  deriving DecidableEq, Repr

structure Project where
  id : String
  name : String
  path : String
  deriving DecidableEq, Repr

/-- What `openSubagent` reads of a task. -/
structure Subagent where
  id : String
  title : String
  deriving DecidableEq, Repr

/-- `WorkspaceTab`. -/
structure Tab where
  fields : List (String × Json)

namespace Tab

/-- An object of the fields that are not `undefined`. -/
def object (fields : List (String × Option Json)) : Tab :=
  ⟨fields.filterMap fun f => f.2.map fun v => (f.1, v)⟩

def get (tab : Tab) (key : String) : Option Json := tab.fields.lookup key

/-- A field that is a string. -/
def text (tab : Tab) (key : String) : Option String := (tab.get key).bind Json.str?

def id (tab : Tab) : Option String := tab.text "id"

/-- `{ ...tab, ...fields }`. -/
def assign (tab : Tab) (fields : List (String × Option Json)) : Tab :=
  ⟨fields.foldl (fun object f =>
    match f.2 with
    | some v => TaskInfo.set object f.1 v
    | none => Assoc.drop f.1 object) tab.fields⟩

end Tab

/-- `typeof v === "string"`. -/
def isText : Option Json → Bool
  | some (.str _) => true
  | _ => false

/-- `typeof v === "string" && !!v`. -/
def isName : Option Json → Bool
  | some (.str s) => s ≠ ""
  | _ => false

/-- `typeof v === "boolean"`. -/
def isBoolean : Option Json → Bool
  | some (.bool _) => true
  | _ => false

/-- `v === undefined || typeof v === "string"`. -/
def isOptionalText (v : Option Json) : Bool := v.isNone || isText v

/-- `!!v`. -/
def truthy : Option Json → Bool
  | none | some .null | some (.bool false) => false
  | some (.num text) => decimalValue text ≠ 0
  | some (.str s) => s ≠ ""
  | some _ => true

/-- A string of at most so many characters. -/
def isBounded (n : ℕ) : Option Json → Bool
  | some (.str s) => utf16Length s ≤ n
  | _ => false

def isLowerHex (c : Char) : Bool := c.isDigit || ('a' ≤ c && c ≤ 'f')

/-- `/^[0-9a-f]{8}-[0-9a-f]{4}-[0-9a-f]{4}-[0-9a-f]{4}-[0-9a-f]{12}$/`. -/
def uuidPattern (s : List Char) : Bool :=
  s.length = 36 && s.zipIdx.all fun (c, i) =>
    if i = 8 ∨ i = 13 ∨ i = 18 ∨ i = 23 then c = '-' else isLowerHex c

variable (parse : String → Option Resources.Url)

namespace Tab

variable (tab : Tab)

/-- The check of a reference, none where it throws: `null` has no fields. -/
def referenceValid : Option Bool :=
  match tab.get "reference" with
  | none => some true
  | some .null => none
  | some reference => some (isName (reference.get? "path") && isText (reference.get? "name") &&
      isBoolean (reference.get? "directory"))

/-- The check of a tab that shows a place of the task. -/
def locationValid : Option Bool :=
  if isOptionalText (tab.get "path") && isOptionalText (tab.get "file") then
    tab.referenceValid.map fun valid => valid &&
      (tab.text "kind" ≠ some "diff" || (tab.get "requestId").isNone ||
        isName (tab.get "requestId") && isBounded 256 (tab.get "requestId") &&
          isName (tab.get "snapshotSessionId"))
  else some false

/-- The predicate that `readWorkspace` asks of a tab whose id is a string, none where it throws. -/
def valid : Option Bool :=
  match tab.text "kind" with
  | some "files" | some "diff" | some "subagents" | some "taskInfo" => tab.locationValid
  | some "artifact" =>
    some (isName (tab.get "path") && isText (tab.get "name") && isBoolean (tab.get "directory"))
  | some "browser" =>
    some (tab.id.any (fun id => uuidPattern id.toList) && isText (tab.get "title") &&
      match tab.text "url" with
      | some url => url = "" || (Resources.webLink parse url).isSome
      | none => false)
  | some "turnChanges" =>
    some (isName (tab.get "requestId") && isBounded 256 (tab.get "requestId") &&
      isName (tab.get "sessionId") && isText (tab.get "title") && isOptionalText (tab.get "file"))
  | some "subagent" => some (isName (tab.get "taskId") && isText (tab.get "title"))
  | some "terminal" =>
    some (match tab.get "terminal" with
      | some terminal => (terminal.get? "id").bind Json.str? = tab.id && tab.id.isSome &&
          isText (terminal.get? "project_id") && isText (terminal.get? "title")
      | none => false)
  | _ => some false

end Tab

structure WorkspaceState where
  tabs : List Tab
  current : String
  visible : Bool
  expanded : Bool
  conversationActive : Bool
  width : Number

/-- The state of a workspace that nothing was stored of. -/
def initial : WorkspaceState where
  tabs := []
  current := ""
  visible := false
  expanded := false
  conversationActive := false
  width := ⟨"350", by decide⟩

/-- `JSON.stringify` of a state. -/
def stringify (state : WorkspaceState) : String :=
  (Json.obj [("tabs", .arr (state.tabs.map fun tab => .obj tab.fields)), ("current", .str state.current),
    ("visible", .bool state.visible), ("expanded", .bool state.expanded),
    ("conversationActive", .bool state.conversationActive), ("width", .num state.width.text)]).render

/-- The filter of `readWorkspace`, with the ids seen so far. It throws where a check does. -/
def keepTabs : List String → List Json → Option (List Tab)
  | _, [] => some []
  | ids, .obj fields :: rest =>
    match Tab.id ⟨fields⟩ with
    | none => keepTabs ids rest
    | some id =>
      if id ∈ ids then keepTabs ids rest
      else
        match Tab.valid parse ⟨fields⟩ with
        | none => none
        | some true => (keepTabs (ids ++ [id]) rest).map (⟨fields⟩ :: ·)
        | some false => keepTabs ids rest
  | ids, _ :: rest => keepTabs ids rest

def isReview (tab : Tab) : Bool :=
  tab.text "kind" = some "diff" || tab.text "kind" = some "turnChanges"

/-- The one tab that the review tabs of an earlier version become. -/
def unified (review : Tab) : Tab :=
  if review.text "kind" = some "turnChanges" then
    .object [("id", some (.str "diff")), ("kind", some (.str "diff")),
      ("requestId", review.get "requestId"), ("snapshotSessionId", review.get "sessionId"),
      ("file", review.get "file"), ("hostId", review.get "hostId"), ("project", review.get "project")]
  else review.assign [("id", some (.str "diff"))]

/-- One tab in the place of the first review tab, and the others gone. -/
def mergeReviews (tab : Tab) : List Tab → List Tab
  | [] => []
  | t :: rest => if isReview t then tab :: rest.filter (!isReview ·) else t :: mergeReviews tab rest

/-- The tabs and the current id behind the merge of review tabs. -/
def merged (tabs : List Tab) (current : Option String) : List Tab × Option String :=
  let reviewTabs := tabs.filter isReview
  let review := (reviewTabs.find? fun tab => tab.id = current).or reviewTabs.getLast?
  match review with
  | some review =>
    if reviewTabs.any fun tab => tab.text "kind" = some "turnChanges" then
      (mergeReviews (unified review) tabs,
        if reviewTabs.any fun tab => tab.id = current then some "diff" else current)
    else (tabs, current)
  | none => (tabs, current)

def minWidth : ℚ := 280

/-- `Math.max` with the least width. -/
def atLeast (n : Number) : Number := if decimalValue n.text < minWidth then ⟨"280", by decide⟩ else n

def readWidth : Option Json → Number
  | some (.num text) => if h : Json.isNumber text.toList = true then atLeast ⟨text, h⟩ else initial.width
  | _ => initial.width

/-- The state that a text stands for, `initial` where reading it throws. -/
def readState (serialized : Option String) : WorkspaceState :=
  match Json.parse (serialized.getD "null").toList with
  | none => initial
  | some saved =>
    match saved.get? "tabs" with
    | some (.arr all) =>
      match keepTabs parse [] all with
      | none => initial
      | some kept =>
        let (tabs, current) := merged kept ((saved.get? "current").bind Json.str?)
        { tabs
          current :=
            match current with
            | some current =>
              if tabs.any fun tab => tab.id = some current then current
              else (tabs.getLast?.bind Tab.id).getD ""
            | none => (tabs.getLast?.bind Tab.id).getD ""
          visible :=
            (match saved.get? "visible" with | some (.bool false) => false | _ => true) &&
              !(!all.isEmpty && tabs.isEmpty && !truthy (saved.get? "expanded"))
          expanded := (match saved.get? "expanded" with | some (.bool b) => b | _ => false)
          conversationActive :=
            (match saved.get? "conversationActive" with | some (.bool b) => b | _ => false) ||
              ((match saved.get? "expanded" with | some (.bool b) => b | _ => false) && tabs.isEmpty)
          width := readWidth (saved.get? "width") }
    | _ => initial

/-! ### The workspaces of a process -/

def keyPrefix : String := "latte-work.conversation-workspace.v1:"

/-- The storage of the browser, its keys in their order, and the states this process has in memory. -/
structure World where
  storage : List (String × String) := []
  cache : List (String × WorkspaceState) := []

/-- A key under which an earlier version kept the workspace of this conversation. -/
def isLegacy (key oldKey : String) : Bool :=
  (keyPrefix ++ "[").toList.isPrefixOf oldKey.toList &&
    match Json.parse (oldKey.toList.drop keyPrefix.toList.length) with
    | some (.arr [_, _, .str k]) => k = key
    | _ => false

/-- The search for the state of an earlier version: what it found, and whether that was stored under
the key of today. Where the storage takes nothing, the search goes on. -/
def findLegacy (key : String) (stores : Bool) : List (String × String) → Option String →
    Option String × Bool
  | [], found => (found, false)
  | (oldKey, text) :: rest, found =>
    if isLegacy key oldKey then
      if stores then (some text, true) else findLegacy key stores rest (some text)
    else findLegacy key stores rest found

/-- `readWorkspace`. Whether the storage takes what is stored is the browser's. -/
def readWorkspace (key : String) (stores : Bool) : Prog World String WorkspaceState := do
  let w ← Prog.current
  match w.cache.lookup key with
  | some cached => pure cached
  | none =>
    let (serialized, storage) :=
      match w.storage.lookup (keyPrefix ++ key) with
      | some text => (some text, w.storage)
      | none =>
        match findLegacy key stores w.storage none with
        | (some text, true) => (some text, TaskInfo.set w.storage (keyPrefix ++ key) text)
        | (found, _) => (found, w.storage)
    let state := readState parse serialized
    Prog.update fun w => { storage, cache := TaskInfo.set w.cache key state }
    pure state

/-- What `updateWorkspace` sets right in the state it was given. -/
def settle (next : WorkspaceState) : WorkspaceState :=
  let next :=
    if next.tabs.any fun tab => tab.id = some next.current then next
    else { next with current := (next.tabs.getLast?.bind Tab.id).getD "" }
  if next.expanded && next.tabs.isEmpty then { next with conversationActive := true } else next

def updateWorkspace (key : String) (stores : Bool)
    (update : WorkspaceState → Except String WorkspaceState) : Prog World String Unit := do
  let previous ← readWorkspace parse key stores
  let next ← Prog.lift (update previous)
  let next := settle next
  Prog.update fun w =>
    { storage := if stores then TaskInfo.set w.storage (keyPrefix ++ key) (stringify next) else w.storage
      cache := TaskInfo.set w.cache key next }

def copyWorkspace (source target : String) (stores : Bool) : Prog World String Unit := do
  let state ← readWorkspace parse source stores
  updateWorkspace parse target stores fun _ => .ok state

/-- Whether a tab of this id is open. -/
def hasTab (state : WorkspaceState) (id : String) : Bool := state.tabs.any fun tab => tab.id = some id

/-- A tab is opened unless there is one of its id, and it is shown. -/
def openTab (id : String) (tab : Tab) (state : WorkspaceState) : WorkspaceState where
  tabs := if hasTab state id then state.tabs else state.tabs ++ [tab]
  current := id
  visible := true
  expanded := state.expanded
  conversationActive := false
  width := state.width

/-- A tab of this id is replaced, or a new one opened, and it is shown. -/
def replaceTab (id : String) (replace : Tab → Tab) (tab : Tab) (state : WorkspaceState) :
    WorkspaceState where
  tabs :=
    if hasTab state id then state.tabs.map fun t => if t.id = some id then replace t else t
    else state.tabs ++ [tab]
  current := id
  visible := true
  expanded := state.expanded
  conversationActive := false
  width := state.width

/-- A tab of which there is one, under its kind. -/
def soleTab (kind : String) : Tab := .object [("id", some (.str kind)), ("kind", some (.str kind))]

def openSubagents (key : String) (stores : Bool) : Prog World String Unit :=
  updateWorkspace parse key stores fun state => .ok (openTab "subagents" (soleTab "subagents") state)

def subagentTab (task : Subagent) : Tab :=
  .object [("id", some (.str ("subagent:" ++ task.id))), ("kind", some (.str "subagent")),
    ("taskId", some (.str task.id)), ("title", some (.str task.title))]

def openSubagent (key : String) (task : Subagent) (stores : Bool) : Prog World String Unit :=
  updateWorkspace parse key stores fun state =>
    .ok (openTab ("subagent:" ++ task.id) (subagentTab task) state)

/-- The kinds that `openWorkspaceResource` opens. -/
inductive ResourceKind where
  | files
  | diff
  deriving DecidableEq, Repr

def ResourceKind.name : ResourceKind → String
  | files => "files"
  | diff => "diff"

/-- The place that `openWorkspaceResource` shows. The outer `none` is a field that is absent, the inner
one `undefined`. -/
structure Location where
  path : Option (Option String) := none
  file : Option (Option String) := none
  deriving DecidableEq, Repr

def Location.fields (location : Location) : List (String × Option Json) :=
  (location.path.map fun path => ("path", path.map Json.str)).toList ++
    (location.file.map fun file => ("file", file.map Json.str)).toList

def resourceTab (kind : ResourceKind) (location : Location) : Tab :=
  .object ([("id", some (.str kind.name)), ("kind", some (.str kind.name))] ++ location.fields)

def openWorkspaceResource (key : String) (kind : ResourceKind) (location : Location)
    (stores : Bool) : Prog World String Unit :=
  let tab := resourceTab kind location
  updateWorkspace parse key stores fun state => .ok (replaceTab kind.name (fun t =>
    if kind = .diff then tab
    else if t.text "kind" ≠ some "files" then t
    else t.assign ([("reference", none), ("sessionId", none)] ++ location.fields)) tab state)

def turnTab (sessionId requestId : String) (time : Option Number) (file : Option String) : Tab :=
  .object [("id", some (.str "diff")), ("kind", some (.str "diff")),
    ("requestId", some (.str requestId)), ("snapshotSessionId", some (.str sessionId)),
    ("snapshotAt", some (match time with | some n => .num n.text | none => .null)),
    ("file", file.map Json.str)]

def openTurnChanges (key sessionId requestId : String) (time : Option Number) (file : Option String)
    (stores : Bool) : Prog World String Unit :=
  let tab := turnTab sessionId requestId time file
  updateWorkspace parse key stores fun state => .ok (replaceTab "diff" (fun _ => tab) tab state)

def isBrowser (tab : Tab) : Bool := tab.text "kind" = some "browser"

def browserTab (url uuid title : String) : Tab :=
  .object [("id", some (.str uuid)), ("kind", some (.str "browser")), ("url", some (.str url)),
    ("title", some (.str title))]

/-- The update of `openBrowser`. `uuid` is the new one, and an address that cannot be parsed again
throws. -/
def browserUpdate (url uuid : String) (newTab : Bool) (state : WorkspaceState) :
    Except String WorkspaceState := do
  let existing :=
    if url ≠ "" ∧ newTab = false then
      (state.tabs.find? fun tab => isBrowser tab && tab.text "url" = some url).bind Tab.id
    else none
  match existing with
  | some id =>
    .ok { state with current := id, visible := true, conversationActive := false }
  | none =>
    Fallible.bailIf (32 ≤ (state.tabs.filter isBrowser).length) "最多打开 32 个浏览器标签"
    let title ← if url ≠ "" then orError "Invalid URL" ((parse url).map (·.hostname)) else .ok "浏览器"
    .ok { state with
      tabs := state.tabs ++ [browserTab url uuid title]
      current := uuid
      visible := true
      conversationActive := false }

def openBrowser (key value uuid : String) (newTab stores : Bool) : Prog World String Unit :=
  match if value ≠ "" then Resources.webLink parse value else some "" with
  | none => pure ()
  | some url => updateWorkspace parse key stores (browserUpdate parse url uuid newTab)

def openTaskInfo (key : String) (stores : Bool) : Prog World String Unit :=
  updateWorkspace parse key stores fun state =>
    .ok { openTab "taskInfo" (soleTab "taskInfo") state with expanded := false }

/-- Who a reference belongs to. -/
structure Owner where
  hostId : Option String := none
  project : Option Project := none
  sessionId : Option String := none
  deriving DecidableEq, Repr

def Project.toJson (p : Project) : Json := .obj [("id", .str p.id), ("name", .str p.name), ("path", .str p.path)]

/-- `path.replace(/\/$/, "")`. -/
def dropEndSlash (path : List Char) : List Char := if path.getLast? = some '/' then path.dropLast else path

/-- `path.replace(/^\.\//, "")`. -/
def dropHere (path : List Char) : List Char :=
  match path with
  | '.' :: '/' :: rest => rest
  | _ => path

/-- `path.replace(/\/\.$/, "")`. -/
def dropEndHere (path : List Char) : List Char :=
  if ['/', '.'].isSuffixOf path then path.take (path.length - 2) else path

def hostPath (project : Option Project) (path : String) : String :=
  match project with
  | none => path
  | some project =>
    if path.toList.head? = some '/' then path
    else String.ofList (dropEndHere (dropEndSlash project.path.toList ++ '/' :: dropHere path.toList))

/-- `path.split("/").slice(0, -1).join("/")`. -/
def parentPath (path : List Char) : List Char :=
  ((path.reverse.dropWhile (· ≠ '/')).tail).reverse

def artifactTab (entry : FileEntry) (owner : Owner) (selectedFile : Option String) : Tab :=
  let hosted := hostPath owner.project
  let isReference := entry.path.toList.head? = some '/' ∨ entry.directory = true
  let reference : Option Json :=
    if isReference then some (.obj [("name", .str entry.name), ("path", .str (hosted entry.path)),
      ("directory", .bool entry.directory)])
    else none
  let file :=
    match selectedFile with
    | some selected => if isReference then hosted selected else selected
    | none => if entry.directory then "" else entry.path
  let path := if entry.directory then hosted entry.path else String.ofList (parentPath file.toList)
  .object [("id", some (.str "files")), ("kind", some (.str "files")),
    ("hostId", owner.hostId.map Json.str), ("project", owner.project.map Project.toJson),
    ("sessionId", owner.sessionId.map Json.str), ("reference", reference), ("path", some (.str path)),
    ("file", some (.str file))]

def openArtifact (key : String) (entry : FileEntry) (owner : Owner) (selectedFile : Option String)
    (stores : Bool) : Prog World String Unit :=
  let tab := artifactTab entry owner selectedFile
  updateWorkspace parse key stores fun state => .ok (replaceTab "files" (fun _ => tab) tab state)

/-- What is done with the workspaces, with whether the storage takes what is stored. -/
inductive Op where
  | openSubagents (key : String) (stores : Bool)
  | openSubagent (key : String) (task : Subagent) (stores : Bool)
  | openWorkspaceResource (key : String) (kind : ResourceKind) (location : Location) (stores : Bool)
  | openTurnChanges (key sessionId requestId : String) (time : Option Number) (file : Option String)
      (stores : Bool)
  | openBrowser (key value uuid : String) (newTab stores : Bool)
  | openTaskInfo (key : String) (stores : Bool)
  | openArtifact (key : String) (entry : FileEntry) (owner : Owner) (selectedFile : Option String)
      (stores : Bool)
  | copyWorkspace (source target : String) (stores : Bool)
  | read (key : String) (stores : Bool)
  | restart

def step (w : World) : Op → World
  | .openSubagents key stores => ((openSubagents parse key stores).run w).2
  | .openSubagent key task stores => ((openSubagent parse key task stores).run w).2
  | .openWorkspaceResource key kind location stores =>
    ((openWorkspaceResource parse key kind location stores).run w).2
  | .openTurnChanges key sessionId requestId time file stores =>
    ((openTurnChanges parse key sessionId requestId time file stores).run w).2
  | .openBrowser key value uuid newTab stores => ((openBrowser parse key value uuid newTab stores).run w).2
  | .openTaskInfo key stores => ((openTaskInfo parse key stores).run w).2
  | .openArtifact key entry owner selectedFile stores =>
    ((openArtifact parse key entry owner selectedFile stores).run w).2
  | .copyWorkspace source target stores => ((copyWorkspace parse source target stores).run w).2
  | .read key stores => ((readWorkspace parse key stores).run w).2
  | .restart => { storage := w.storage }

/-- The state after a list of operations, from an empty storage on. -/
def run (ops : List Op) : World := Runs.run (step parse) {} ops

end Workspace

end LatteWork
