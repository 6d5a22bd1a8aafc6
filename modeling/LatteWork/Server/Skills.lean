import LatteWork.Lib.Program
import LatteWork.Lib.PathTree
import LatteWork.Snapshot.Disk
import LatteWork.Store.Sessions

/-!
# Importing a skill

The files of a skill are uploads of the client, with the paths it gives them. They are written
into a directory of the server's own, which is then copied to where skills are installed and moved
into place.
-/

namespace LatteWork

namespace Skills

open Prog

abbrev Path := List String

abbrev Files := PathTree String Node Node.isDir

/-- Why an import ends. -/
inductive Fault where
  | expired | io | badName | noFiles | manyFiles | foreign | manyItems | noMarkdown | uploadSize
  | badPath (path : String)
  | folderRefused (path : String)
  | fileRefused (path : String)
  | noSource | sourceName | sourceMarkdown | sourceBody
  | notFolder (path : Path)
  | occupied (path : Path)
  | copyDepth | copyCount | copySize | copySpecial
  deriving DecidableEq, Repr

def slashed (path : Path) : String := "/" ++ "/".intercalate path

def Fault.text : Fault → String
  | expired => "Skill 操作已超时或取消，请刷新核对状态"
  | io => ioError
  | badName => "技能目录名无效：最多 128 个英文字母、数字、连字符、下划线或点号，不能以点号开头"
  | noFiles => "技能中没有文件，请选择 SKILL.md 或包含它的文件夹"
  | manyFiles => "技能文件数量超过 512 项"
  | foreign => "技能文件必须来自当前主机已完成的上传"
  | manyItems => "技能最多 512 项，文件和目录不能重名"
  | noMarkdown => "技能中缺少 SKILL.md"
  | uploadSize => "技能上传超出读取范围（总量 16 MiB，SKILL.md 64 KiB）"
  | badPath path => "技能文件路径无效或重复：" ++ String.ofList (path.toList.take 128)
  | folderRefused path => "无法创建技能文件的目录，请核对目标文件系统的名称或路径限制：" ++ path
  | fileRefused path => "无法写入技能文件，请核对大小写冲突或目标文件系统的名称限制：" ++ path
  | noSource => "Skill 目录不存在"
  | sourceName => "Skill 目录名称无效"
  | sourceMarkdown => "目录中缺少 SKILL.md"
  | sourceBody => ioError
  | notFolder path => "Skill 安装位置不是普通目录：" ++ slashed path
  | occupied path => "目标位置已存在，请先核对：" ++ slashed path
  | copyDepth => "技能根目录下的子目录超过 8 层"
  | copyCount => "Skill 文件数量超过 512 项"
  | copySize => "Skill 文件总量超过 16 MiB"
  | copySpecial => "Skill 包含符号链接或特殊文件，请先整理后再导入"

/-- A limit of `copy_tree`. -/
def Fault.copyLimit : Fault → Bool
  | copyDepth | copyCount | copySize => true
  | _ => false

/-- What the system decides: whether a call goes well, or comes in time; the names it gives
temporary directories; which of these are in use; and the order it lists a directory in. -/
structure Os where
  allowed : ℕ → Bool
  suffix : ℕ → String
  locked : ℕ → Path → Bool
  order : ℕ → List String → List String
  order_perm : ∀ n names, (order n names).Perm names

/-- What an import works on. `calls` is how often the system was asked; `copied` is the budget of
`copy_tree`. -/
structure World where
  files : Files
  calls : ℕ := 0
  copied : ℕ × ℕ := (0, 0)

abbrev Op := Prog World Fault

variable (os : Os)

/-- Ask the system. -/
def ask (e : Fault) : Op Unit := do
  let w ← current
  update fun w => { w with calls := w.calls + 1 }
  bailIf (os.allowed w.calls = false) e

/-- `check_budget`. -/
def check : Op Unit := ask os .expired

/-- A new node in a directory. -/
def place (path : Path) (node : Node) : Op Unit := do
  ask os .io
  let w ← current
  let files ← orError .io (w.files.insert path node)
  update fun w => { w with files }

def createDir (path : Path) : Op Unit := place os path (.dir true)

/-- `create_new`, with what is written. Of a write that fails less is there. -/
def createNew (path : Path) (bytes : List UInt8) (mode : ℕ) : Op Unit := do
  place os path (.file bytes (regularMode mode))
  ask os .io

/-- `create_dir_all`. -/
def createDirAll (path : Path) : Op Unit :=
  forEach (fun p => do
    let w ← current
    when (w.files.isFolder p = false) (createDir os p)) path.inits

/-- `with_context`. -/
def withContext (e : Fault) (m : Op Unit) : Op Unit := rescue m fun _ => fail e

/-- The names in a directory, in the system's order. -/
def readDir (path : Path) : Op (List String) := do
  ask os .io
  let w ← current
  bailIf (w.files.isFolder path = false) .io
  pure (os.order w.calls (w.files.names path))

/-- What is at a path and below it is removed. -/
def removeDirAll (path : Path) : Op Unit := do
  ask os .io
  update fun w => { w with files := w.files.remove path }

/-- A temporary directory goes out of use. That it is not removed is no error. -/
def discard (path : Path) : Op Unit := do
  let _ ← attempt (removeDirAll os path)
  pure ()

def lease : String := ".latte-work-stage"

def marker : List UInt8 := "latte-work-skill-stage-v1\n".toUTF8.toList

/-- `strip_prefix`, and the checks of what is left. -/
def stageName (front name : String) : Bool :=
  let suffix := name.toList.drop front.length
  front.toList <+: name.toList && suffix.length = 6 && suffix.all fun c => c.isAlphanum

/-- A directory has the mark of a stage. -/
def marked (files : Files) (path : Path) : Bool :=
  match files.node (path ++ [lease]) with
  | some (.file bytes _) => bytes = marker
  | _ => false

/-- The loop of `Staging::new` over what is in a directory: stages that nobody uses are removed. -/
def recover (parent : Path) (front : String) : List String → ℕ → Op Unit
  | [], _ => pure ()
  | name :: rest, recovered => do
    check os
    let w ← current
    let path := parent ++ [name]
    if stageName front name ∧ w.files.isFolder path = true ∧ marked w.files path = true ∧
        os.locked w.calls path = false then
      removeDirAll os path
      if recovered = 7 then pure () else recover parent front rest (recovered + 1)
    else recover parent front rest recovered

/-- `Staging::new`. -/
def newStaging (parent : Path) (front : String) : Op Path := do
  check os
  let names ← readDir os parent
  recover os parent front (names.take 512) 0
  check os
  let w ← current
  let path := parent ++ [front ++ os.suffix w.calls]
  createDir os path
  rescue (createNew os (path ++ [lease]) marker 0o600) fun e => do
    discard os path
    fail e
  pure path

/-- What is done in a stage, which is discarded behind it. -/
def inStaging (staging : Path) (m : Op Unit) : Op Unit := do
  let result ← attempt m
  discard os staging
  lift result

/-- `copy_tree`, with the levels that are left. -/
def copyTree : ℕ → Path → Path → Op Unit
  | 0, _, _ => do
    check os
    fail .copyDepth
  | left + 1, source, target => do
    check os
    createDir os target
    let names ← readDir os source
    forEach (fun name => do
      check os
      update fun w => { w with copied := (w.copied.1 + 1, w.copied.2) }
      let w ← current
      bailIf (512 < w.copied.1) .copyCount
      ask os .io
      match w.files.node (source ++ [name]) with
      | some (.dir _) => copyTree left (source ++ [name]) (target ++ [name])
      | some (.file bytes mode) => do
        update fun w =>
          { w with copied := (w.copied.1, min (w.copied.2 + bytes.length) (2 ^ 64 - 1)) }
        let w ← current
        bailIf (16 * 1024 * 1024 < w.copied.2) .copySize
        createNew os (target ++ [name]) bytes (mode % 0o1000)
      | some _ => fail .copySpecial
      | none => fail .io) names
    ask os .io

def component (s : String) : Bool :=
  s ≠ "" && s.utf8ByteSize ≤ 128 &&
    (s.toList.all fun c => c.isAlphanum || c = '_' || c = '-' || c = '.') &&
    s.toList.head? ≠ some '.'

/-- `safe_folder`. -/
def safeFolder (path : Path) : Op Unit :=
  forEach (fun p => do
    ask os .io
    let w ← current
    match w.files.node p with
    | some (.dir _) => pure ()
    | some _ => fail (.notFolder p)
    | none => createDir os p) path.inits

def requireAbsent (path : Path) : Op Unit := do
  ask os .io
  let w ← current
  bailIf ((w.files.node path).isSome) (.occupied path)

/-- `inspect`, of which only the errors are used here. -/
def inspect (source : Path) : Op Unit := do
  ask os .io
  let w ← current
  match w.files.node (source ++ ["SKILL.md"]) with
  | some (.file bytes _) =>
    bailIf (64 * 1024 < bytes.length ∨ (String.fromUTF8? bytes.toByteArray).isNone) .sourceBody
  | some _ => fail .sourceBody
  | none => fail .sourceMarkdown

/-- A directory is moved to a path. -/
def rename (source target : Path) : Op Unit := do
  ask os .io
  let w ← current
  let files ← orError .io (w.files.move source target)
  update fun w => { w with files }

end Skills

open Skills in
/-- `Skills`, with the real paths of the server's directory and of the home directory. The
server's directory and the one that the skills are in are apart. -/
structure Skills where
  directory : Path
  home : Path
  apart : ¬directory <+: home ++ [".agents"] ∧ ¬home ++ [".agents"] <+: directory

namespace Skills

open Prog

structure SkillImportFile where
  path : String
  attachment : String
  deriving DecidableEq, Repr, Inhabited

variable (os : Os) (k : Skills)

def agents : Path := k.home ++ [".agents"]

/-- The directory of the skills of this host. -/
def root : Path := k.agents ++ ["skills"]

/-- `install` of a directory for this host. -/
def install (source : Path) : Op Unit := do
  check os
  ask os .io
  let w ← current
  bailIf (w.files.isFolder source = false) .noSource
  let slug ← orError .sourceName (source.getLast?.filter component)
  inspect os source
  ask os .io
  let w ← current
  bailIf ((w.files.node k.home).isNone) .io
  safeFolder os k.root
  forEach (fun folder => requireAbsent os (k.agents ++ [folder, slug]))
    ["skills", "skills.latte-work-disabled", "skills.latte-work-uninstalled"]
  let staging ← newStaging os k.agents ".latte-work-skill-import-"
  inStaging os staging do
    update fun w => { w with copied := (0, 0) }
    copyTree os 9 source (staging ++ [slug])
    check os
    rename os (staging ++ [slug]) (k.root ++ [slug])

/-- The path of a string that starts with a slash. -/
def absolute (s : String) : Path := components s

def hexDigit (c : Char) : Bool :=
  c.isDigit || ('a' ≤ c && c ≤ 'f') || ('A' ≤ c && c ≤ 'F')

/-- `Uuid::parse_str`, of 36 characters. -/
def uuid (s : List Char) : Bool :=
  s.length = 36 && (s.zipIdx.all fun (c, i) =>
    if i = 8 ∨ i = 13 ∨ i = 18 ∨ i = 23 then c = '-' else hexDigit c)

/-- `is_completed`: the path of an upload that is finished. -/
def isCompleted (uploads : Path) (path : String) : Bool :=
  path.toList.head? = some '/' &&
    match (absolute path).getLast? with
    | some name =>
      (absolute path).dropLast = uploads && 37 < name.utf8ByteSize &&
        name.toList[36]? = some '-' && uuid (name.toList.take 36)
    | none => false

/-- `parts[..n].join("/")`. -/
def joinParts (parts : List String) : String :=
  String.ofList (['/'].intercalate (parts.map String.toList))

def badPart (part : String) : Bool :=
  part = "" || part = "." || part = ".." || 255 < part.utf8ByteSize || part.toList.contains '\\' ||
    part.toList.any Store.isControl

/-- One turn of the first loop of `import_files`: the names and the directories of a manifest. -/
def checkFile (uploads : Path) (found : List String × List String) (item : SkillImportFile) :
    Except Fault (List String × List String) := do
  let parts := pathParts item.path
  Fallible.bailIf (1024 < item.path.utf8ByteSize ∨ 9 < parts.length ∨ parts.any badPart ∨
    item.path ∈ found.1) (.badPath item.path)
  Fallible.bailIf (isCompleted uploads item.attachment = false) .foreign
  .ok (item.path :: found.1,
    (List.range' 1 (parts.length - 1)).foldl (fun l n => l.insert (joinParts (parts.take n)))
      found.2)

/-- The checks of `import_files` before anything is staged. -/
def checkFiles (uploads : Path) (files : List SkillImportFile) : Except Fault Unit := do
  let (names, directories) ← files.foldlM (checkFile uploads) ([], [])
  Fallible.bailIf (512 < names.length + directories.length ∨ ∃ d ∈ directories, d ∈ names)
    .manyItems
  Fallible.bailIf ("SKILL.md" ∉ names) .noMarkdown

def uploads : Path := k.directory ++ ["paste-tmp"]

/-- The first part of `import_files`: the checks, and a new stage. -/
def accept (name : String) (files : List SkillImportFile) : Op Path := do
  check os
  bailIf (component name = false) .badName
  bailIf (files = []) .noFiles
  bailIf (512 < files.length) .manyFiles
  createDirAll os k.uploads
  ask os .io
  let w ← current
  bailIf (w.files.isFolder k.uploads = false) .io
  lift (checkFiles k.uploads files)
  newStaging os k.directory "skill-upload-"

/-- One name of a path, as the system follows it. -/
def follow (path : Path) (name : String) : Path :=
  if name = "" ∨ name = "." then path else if name = ".." then path.dropLast else path ++ [name]

/-- `Path::join`, as the system follows what it gives. -/
def joinPath (path : Path) (rest : String) : Path :=
  (pathParts rest).foldl follow (if rest.toList.head? = some '/' then [] else path)

/-- One turn of the second loop of `import_files`. -/
def stageFile (source : Path) (total : ℕ) (item : SkillImportFile) : Op ℕ := do
  check os
  ask os .io
  let w ← current
  match w.files.node (absolute item.attachment) with
  | some (.file bytes _) =>
    let total := min (total + bytes.length) (2 ^ 64 - 1)
    bailIf (16 * 1024 * 1024 < total ∨ item.path = "SKILL.md" ∧ 64 * 1024 < bytes.length)
      .uploadSize
    let target := joinPath source item.path
    withContext (.folderRefused item.path) (createDirAll os target.dropLast)
    withContext (.fileRefused item.path) (place os target (.file bytes (regularMode 0o600)))
    check os
    ask os .io
    pure total
  | some .symlink | none => fail .io
  | some _ => fail .uploadSize

/-- The second loop of `import_files`. -/
def stageFiles (source : Path) : ℕ → List SkillImportFile → Op Unit
  | _, [] => pure ()
  | total, item :: rest => do
    let total ← stageFile os source total item
    stageFiles source total rest

/-- What `import_files` writes into a stage. -/
def stage (source : Path) (files : List SkillImportFile) : Op Unit := do
  createDir os source
  stageFiles os source 0 files

def importFiles (name : String) (files : List SkillImportFile) : Op Unit := do
  let staging ← k.accept os name files
  inStaging os staging do
    stage os (staging ++ [name]) files
    k.install os (staging ++ [name])

end Skills

end LatteWork
