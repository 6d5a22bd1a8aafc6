import LatteWork.Lib.Fallible
import LatteWork.Snapshot.Disk

/-!
# Choosing the files of a skill

What the client asks of the files of a skill before it uploads them.
-/

namespace LatteWork

namespace SkillImport

open Fallible

/-- A file, of which only the size is asked for. -/
structure SkillFile where
  path : String
  size : ℕ
  deriving DecidableEq, Repr, Inhabited

inductive Refusal where
  | entries | path | bytes | markdown | clash
  deriving DecidableEq, Repr

def Refusal.text : Refusal → String
  | entries => "请选择一个技能，最多 512 项"
  | path => "技能文件路径无效、重复或超过 8 层子目录"
  | bytes => "技能最多 16 MiB，SKILL.md 最多 64 KiB"
  | markdown => "请选择 SKILL.md 或包含它的技能文件夹"
  | clash => "技能最多 512 项，文件和目录不能重名"

def maxBytes : ℕ := 16 * 1024 * 1024

structure Found where
  bytes : ℕ := 0
  paths : List String := []
  directories : List String := []
  deriving DecidableEq, Repr

/-- A part of a path that is not taken. -/
def badPart (p : String) : Bool :=
  p = "" || 255 < p.utf8ByteSize || p = "." || p = ".." ||
    p.toList.any fun c => c = '\\' || c.toNat < 0x20 || c.toNat = 0x7f

/-- `parts.slice(0, i).join("/")`. -/
def joinParts (parts : List String) : String :=
  String.ofList (['/'].intercalate (parts.map String.toList))

/-- One turn of the loop of `validateSkillFiles`. -/
def checkFile (found : Found) (f : SkillFile) : Except Refusal Found := do
  let parts := pathParts f.path
  bailIf (1024 < f.path.utf8ByteSize ∨ 9 < parts.length ∨ parts.any badPart ∨ f.path ∈ found.paths) .path
  let directories := (List.range' 1 (parts.length - 1)).foldl
    (fun l i => l.insert (joinParts (parts.take i))) found.directories
  let bytes := found.bytes + f.size
  bailIf (maxBytes < bytes ∨ f.path = "SKILL.md" ∧ 65536 < f.size) .bytes
  .ok { bytes, paths := f.path :: found.paths, directories }

def validateSkillFiles (files : List SkillFile) : Except Refusal Unit := do
  bailIf (files = [] ∨ 512 < files.length) .entries
  let found ← files.foldlM checkFile {}
  bailIf ("SKILL.md" ∉ found.paths) .markdown
  bailIf (512 < found.paths.length + found.directories.length ∨
    ∃ p ∈ found.directories, p ∈ found.paths) .clash

end SkillImport

end LatteWork
