import LatteWork.Lib.Fallible
import Mathlib.Data.List.Basic
import Mathlib.Logic.Function.Basic

/-!
# Directory trees

A project directory as the server's system calls see it: what is at each path, without following
symbolic links, and whether the server may add and remove names in a directory.
-/

namespace LatteWork

open Fallible

/-- What `symlink_metadata` finds. `mode` is the whole `st_mode`; `writable` tells whether names of
the directory can be created, replaced and removed by the server. -/
inductive Node where
  | file (bytes : List UInt8) (mode : ℕ)
  | dir (writable : Bool)
  | symlink
  | other
  deriving DecidableEq, Repr, Inhabited

namespace Node

def isDir : Node → Bool
  | dir _ => true
  | _ => false

end Node

/-- A project directory. `identity` is device and inode of the directory its path leads to, none
when there is none; a path is the list of its components below the root. -/
structure Disk where
  identity : Option (ℕ × ℕ)
  isSymlink : Bool := false
  node : List String → Option Node

namespace Disk

/-- Put a node at a path, or nothing. -/
def set (d : Disk) (path : List String) (node : Option Node) : Disk :=
  { d with node := Function.update d.node path node }

@[simp] theorem set_identity (d : Disk) (path : List String) (node : Option Node) :
    (d.set path node).identity = d.identity := rfl

@[simp] theorem set_isSymlink (d : Disk) (path : List String) (node : Option Node) :
    (d.set path node).isSymlink = d.isSymlink := rfl

@[simp] theorem set_node_self (d : Disk) (path : List String) (node : Option Node) :
    (d.set path node).node path = node := by
  simp [set]

theorem set_node_of_ne {d : Disk} {path other : List String} {node : Option Node}
    (h : other ≠ path) : (d.set path node).node other = d.node other := by
  simp [set, h]

/-- The server may change the names of a directory. -/
def writable (d : Disk) (path : List String) : Bool := d.node path = some (.dir true)

end Disk

/-- `st_mode` of a regular file with these permission bits. -/
def regularMode (permissions : ℕ) : ℕ := 0o100000 + permissions

def notFound : String := "No such file or directory (os error 2)"
def permissionDenied : String := "Permission denied (os error 13)"
def ioError : String := "Input/output error (os error 5)"

/-- The text of a relative path between its separators. -/
def pathParts (path : String) : List String := (path.toList.splitOn '/').map String.ofList

/-- `Path::components` of a path that `validatePath` accepts. -/
def components (path : String) : List String :=
  (pathParts path).filter fun c => c ≠ "" ∧ c ≠ "."

/-- `validate_path`: relative, and without a step upwards. -/
def validatePath (path : String) : Except String Unit :=
  bailIf (path = "" ∨ (pathParts path).head? = some "" ∨ (pathParts path).head? = some "." ∨
    ".." ∈ pathParts path) "路径必须位于项目目录内"

/-- A path as an inventory spells it: its components with one separator between each two. -/
def Spelled (path : String) : Prop := String.intercalate "/" (components path) = path

instance (path : String) : Decidable (Spelled path) := inferInstanceAs (Decidable (_ = _))

theorem Spelled.eq {p q : String} (hp : Spelled p) (hq : Spelled q)
    (h : components p = components q) : p = q := by
  rw [← hp, h, hq]

example : components "a/./b//c" = ["a", "b", "c"] := by decide

end LatteWork
