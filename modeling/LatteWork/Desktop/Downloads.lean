import LatteWork.Lib.Program
import LatteWork.Lib.Runs
import LatteWork.Store.Sessions
import LatteWork.Wire.JsonText

/-!
# The downloads of the browser

A list of records, kept in memory and written to a file whole whenever it changes. A download that
finished is saved by a task of its own, which asks for a place and copies the file there. A restart
leaves the file, and what was going on is shown as interrupted when it is read again.
-/

namespace LatteWork

open Fallible (bailIf orError)

namespace Browser

/-- What `allowed` asks of a `tauri::Url`. -/
structure Url where
  asStr : String
  scheme : String
  hostStr : Option String
  username : String := ""
  password : Option String := none
  origin : String
  deriving DecidableEq, Repr, Inhabited

def allowed (url : Url) (dev : Option Url) : Bool :=
  decide (url.asStr.utf8ByteSize ≤ 8192) &&
    (url.scheme = "http" || url.scheme = "https") &&
    url.hostStr.isSome &&
    url.username = "" &&
    url.password.isNone &&
    !(url.hostStr = some "tauri.localhost" || url.hostStr = some "ipc.localhost") &&
    !(dev.any fun dev => dev.origin = url.origin)

/-- `validate_link`. `parse` is `Url::parse`. -/
def validateLink (parse : String → Option Url) (dev : Option Url) (value : String) :
    Except String Url := do
  bailIf (8192 < value.utf8ByteSize) "链接过长"
  let url ← orError "请输入完整的 HTTP 或 HTTPS 链接" (parse value)
  bailIf (allowed url dev = false) "仅支持打开普通 HTTP 或 HTTPS 网页"
  .ok url

end Browser

namespace Downloads

/-- A path of the system, which may be no text. -/
inductive PathBuf where
  | utf8 (path : String)
  | bytes (path : List UInt8)
  deriving DecidableEq, Repr

namespace PathBuf

def isAbsolute : PathBuf → Bool
  | utf8 path => path.toList.head? = some '/'
  | bytes path => path.head? = some 0x2F

def toStr : PathBuf → Option String
  | utf8 path => some path
  | bytes _ => none

end PathBuf

inductive Status where
  | downloading
  | saving
  | completed
  | failed
  | interrupted
  | cancelled
  deriving DecidableEq, Repr

namespace Status

def name : Status → String
  | downloading => "downloading"
  | saving => "saving"
  | completed => "completed"
  | failed => "failed"
  | interrupted => "interrupted"
  | cancelled => "cancelled"

def ofName (name : String) : Option Status :=
  [downloading, saving, completed, failed, interrupted, cancelled].find? fun s => s.name = name

def active : Status → Bool
  | downloading | saving => true
  | _ => false

end Status

structure Download where
  id : String
  name : String
  url : String
  status : Status
  path : Option PathBuf
  error : Option String
  temporary : Option PathBuf
  deriving DecidableEq, Repr

/-- A record as the file has it. Its status is a text, and there is no temporary file. -/
structure Stored where
  id : String
  name : String
  url : String
  status : String
  path : Option String
  error : Option String
  deriving DecidableEq, Repr

namespace Stored

def toJson (r : Stored) : Json :=
  .obj [("id", .str r.id), ("name", .str r.name), ("url", .str r.url), ("status", .str r.status),
    ("path", .opt .str r.path), ("error", .opt .str r.error)]

/-- A field that may be missing or null. -/
def optional (v : Json) (key : String) : Option (Option String) :=
  match v.get? key with
  | none | some .null => some none
  | some (.str s) => some (some s)
  | some _ => none

def ofJson (v : Json) : Option Stored := do
  some {
    id := ← (v.get? "id").bind Json.str?
    name := ← (v.get? "name").bind Json.str?
    url := ← (v.get? "url").bind Json.str?
    status := ← (v.get? "status").bind Json.str?
    path := ← optional v "path"
    error := ← optional v "error" }

end Stored

/-- What is written of a record. A path that is no text is not written. -/
def Download.stored (item : Download) : Except String Stored :=
  match item.path with
  | none => .ok ⟨item.id, item.name, item.url, item.status.name, none, item.error⟩
  | some path => do
    let path ← orError "path contains invalid UTF-8 characters" path.toStr
    .ok ⟨item.id, item.name, item.url, item.status.name, some path, item.error⟩

/-- `serde_json::to_vec` of the records. -/
def toVec (items : List Download) : Except String String := do
  let records ← items.mapM Download.stored
  .ok (Json.arr (records.map Stored.toJson)).render

/-- What the records depend on outside of them: `Url::parse`, the app's own address when it is
developed, `Uuid::parse_str` and the directory of the downloads. -/
structure App where
  parseUrl : String → Option Browser.Url
  dev : Option Browser.Url
  parseUuid : String → Bool
  directory : String

def App.partFile (app : App) (id : String) : PathBuf := .utf8 (app.directory ++ "/" ++ id ++ ".part")

def limit : ℕ := 100

/-- One turn of the loop of `restore`. -/
def restoreItem (app : App) (r : Stored) : Except String Download := do
  bailIf (app.parseUuid r.id = false ∨ 180 < r.name.length ∨ 8192 < r.url.utf8ByteSize)
    "下载记录无效"
  let status ← orError "下载记录无效" (Status.ofName r.status)
  let path := r.path.map PathBuf.utf8
  bailIf (path.any (!·.isAbsolute) = true) "下载记录无效"
  if status.active then
    .ok { id := r.id, name := r.name, url := r.url, status := .interrupted, path
          error := some "应用退出时下载尚未完成", temporary := none }
  else
    .ok { id := r.id, name := r.name, url := r.url, status, path, error := r.error, temporary := none }

/-- `serde_json::from_slice`, of an array of records. -/
def fromSlice (text : String) : Option (List Stored) :=
  match Json.parse text.toList with
  | some (.arr values) => values.mapM Stored.ofJson
  | _ => none

def restore (app : App) (text : String) : Except String (List Download) := do
  let records ← orError "下载记录无法解析" (fromSlice text)
  bailIf (limit < records.length) "下载记录过多"
  records.mapM (restoreItem app)

/-- A task of `save_finished`. -/
structure Save where
  item : Download
  success : Bool

/-- `Downloads`, with the file, the tasks that wait for the lock `save`, the one that has it with
what became of its file, and the copies made so far. -/
structure State where
  items : Option (List Download) := none
  file : Option String := none
  waiting : List Save := []
  saved : Option (Download × Except String (Option PathBuf)) := none
  copies : List (PathBuf × PathBuf) := []

/-- What the file system makes of reading the file and of writing it. -/
structure Io where
  read : Except String Unit := .ok ()
  write : Except String Unit := .ok ()

def load (app : App) (io : Io) : Prog State String (List Download) := do
  let s ← Prog.current
  match s.file with
  | none => pure []
  | some text =>
    Prog.lift io.read
    Prog.bailIf (1024 * 1024 < text.utf8ByteSize) "下载记录过大"
    Prog.lift (restore app text)

/-- The list in memory, loaded at its first use. -/
def loaded (app : App) (io : Io) : Prog State String (List Download) := do
  let s ← Prog.current
  match s.items with
  | some items => pure items
  | none =>
    let items ← load app io
    Prog.update fun s => { s with items := some items }
    pure items

variable {α : Type}

def change (app : App) (io : Io) (edit : List Download → Except String (α × List Download)) :
    Prog State String α := do
  let items ← loaded app io
  let (result, next) ← Prog.lift (edit items)
  let text ← Prog.lift (toVec next)
  Prog.lift io.write
  Prog.update fun s => { s with file := some text, items := some next }
  pure result

def safeName (value : String) : String :=
  let name := ((value.toList.filter fun c =>
    !Store.isControl c && !(c = '/' || c = '\\' || c = ':')).take 180)
  let inner := ((name.dropWhile (· = '.')).reverse.dropWhile (· = '.')).reverse
  if inner.all isWhitespace then "下载文件" else String.ofList name

/-- The loop that makes room: so many records that are not active go, the oldest first. -/
def dropOldest : ℕ → List Download → Except String (List Download)
  | 0, items => .ok items
  | n + 1, items =>
    if items.any (!·.status.active) then dropOldest n (items.eraseP (!·.status.active))
    else .error "下载记录已满"

/-- `strip_prefix("blob:")`, or the whole. -/
def stripBlob (url : String) : String :=
  match url.toList with
  | 'b' :: 'l' :: 'o' :: 'b' :: ':' :: rest => String.ofList rest
  | _ => url

/-- The edit of a request. `id` is the new `Uuid`, and `directory` what becomes of making the
directory of the downloads. -/
def requested (app : App) (id url : String) (fileName : Option String)
    (directory : Except String Unit) (items : List Download) :
    Except String (Unit × List Download) := do
  bailIf (4 ≤ (items.filter (·.status.active)).length) "最多同时下载 4 个文件"
  bailIf (∃ item ∈ items, item.status = .downloading ∧ item.url = url) "此文件正在下载"
  let _ ← Browser.validateLink app.parseUrl app.dev (stripBlob url)
  let name := safeName (fileName.getD "下载文件")
  directory
  let items ← dropOldest (items.length + 1 - limit) items
  .ok ((), items ++ [{ id, name, url, status := .downloading, path := none, error := none
                       temporary := some (app.partFile id) }])

/-- Edit the first record that meets a condition. -/
def editFirst (p : Download → Bool) (f : Download → Download) :
    List Download → Option (Download × List Download)
  | [] => none
  | item :: items =>
    if p item then some (f item, f item :: items)
    else (editFirst p f items).map fun r => (r.1, item :: r.2)

/-- The record of a download that ended. -/
def finishes (url : String) (path : Option PathBuf) (item : Download) : Bool :=
  item.status = .downloading &&
    match path with
    | none => item.url = url
    | some path => item.temporary = some path

def Download.ended (success : Bool) (item : Download) : Download :=
  if success then { item with status := .saving }
  else { item with status := .failed, error := some "下载失败" }

/-- The edit of the end of a download. -/
def finished (url : String) (path : Option PathBuf) (success : Bool) (items : List Download) :
    Except String (Download × List Download) :=
  orError "下载记录未找到" (editFirst (finishes url path) (.ended success) items)

def maxBytes : ℕ := 128 * 1024 * 1024

/-- What `save_finished` comes to before it tells: the size of the temporary file, the answer of
the dialog and the outcome of the copy are the system's. -/
def saveResult (save : Save) (size : Except String ℕ) (chosen : Except String (Option PathBuf))
    (copy : Except String Unit) : Except String (Option PathBuf) := do
  let _ ← orError "临时下载文件未找到" save.item.temporary
  bailIf (save.success = false) "下载失败"
  let size ← size
  bailIf (maxBytes < size) "文件超过 128 MiB 下载上限，请使用系统浏览器"
  match ← chosen with
  | none => .ok none
  | some path => do
    copy
    .ok (some path)

def Download.settled (result : Except String (Option PathBuf)) (item : Download) : Download :=
  match result with
  | .ok (some path) => { item with temporary := none, path := some path, status := .completed }
  | .ok none => { item with temporary := none, status := .cancelled }
  | .error error => { item with temporary := none, status := .failed, error := some error }

/-- The edit at the end of `save_finished`. -/
def recorded (id : String) (result : Except String (Option PathBuf)) (items : List Download) :
    Except String (Unit × List Download) := do
  let (_, items) ← orError "下载记录未找到" (editFirst (·.id = id) (.settled result) items)
  .ok ((), items)

/-- What happens to the downloads, with what the system makes of it. -/
inductive Act where
  | request (io : Io) (id url : String) (fileName : Option String) (directory : Except String Unit)
  | finish (io : Io) (url : String) (path : Option PathBuf) (success : Bool)
  | save (index : ℕ) (size : Except String ℕ) (chosen : Except String (Option PathBuf))
      (copy : Except String Unit)
  | record (io : Io)
  | list (io : Io)
  | clear (io : Io)
  | reveal (io : Io) (id : String)
  | restart

/-- `handle`, of a request. -/
def handleRequested (app : App) (io : Io) (id url : String) (fileName : Option String)
    (directory : Except String Unit) : Prog State String Unit :=
  change app io (requested app id url fileName directory)

/-- `handle`, of the end of a download: the task that saves it is begun. -/
def handleFinished (app : App) (io : Io) (url : String) (path : Option PathBuf) (success : Bool) :
    Prog State String Unit := do
  let item ← change app io (finished url path success)
  Prog.update fun s => { s with waiting := s.waiting ++ [⟨item, success⟩] }

/-- `save_finished`, from the lock to the copy. -/
def save (index : ℕ) (size : Except String ℕ) (chosen : Except String (Option PathBuf))
    (copy : Except String Unit) (s : State) : State :=
  match s.saved, s.waiting[index]? with
  | none, some task =>
    let result := saveResult task size chosen copy
    { s with
      waiting := s.waiting.eraseIdx index
      saved := some (task.item, result)
      copies :=
        match task.item.temporary, result with
        | some source, .ok (some path) => s.copies ++ [(source, path)]
        | _, _ => s.copies }
  | _, _ => s

/-- `save_finished`, its last change, and the lock is free. -/
def record (app : App) (io : Io) : Prog State String Unit := do
  let s ← Prog.current
  match s.saved with
  | none => pure ()
  | some (item, result) =>
    Prog.update fun s => { s with saved := none }
    change app io (recorded item.id result)

def browserDownloads (app : App) (io : Io) : Prog State String (List Download) :=
  change app io fun items => .ok (items, items)

def browserClearDownloads (app : App) (io : Io) : Prog State String Unit :=
  change app io fun items => .ok ((), items.filter (·.status.active))

/-- `browser_reveal_download`, up to the path it shows. -/
def browserRevealDownload (app : App) (io : Io) (id : String) : Prog State String PathBuf :=
  change app io fun items => do
    let path ← orError "下载文件未找到"
      ((items.find? fun item => item.id = id ∧ item.status = .completed).bind (·.path))
    .ok (path, items)

def step (app : App) (s : State) : Act → State
  | .request io id url fileName directory =>
    ((handleRequested app io id url fileName directory).run s).2
  | .finish io url path success => ((handleFinished app io url path success).run s).2
  | .save index size chosen copy => save index size chosen copy s
  | .record io => ((record app io).run s).2
  | .list io => ((browserDownloads app io).run s).2
  | .clear io => ((browserClearDownloads app io).run s).2
  | .reveal io id => ((browserRevealDownload app io id).run s).2
  | .restart => { file := s.file, copies := s.copies }

/-- The state after what happened, from the first start on. -/
def run (app : App) (acts : List Act) : State := Runs.run (step app) {} acts

end Downloads

end LatteWork
