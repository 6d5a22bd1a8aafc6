import LatteWork.Lib.Fallible
import LatteWork.Snapshot.Records

/-!
# Snapshot objects

The directory of immutable object files beside the database: a file's name is the SHA-256 of its
bytes, and a reader checks size and hash. A captured worktree is one object, its files are one
object each.
-/

namespace LatteWork

open Fallible

/-- What the server calls and does not define: the hash, the parser of stored records, and
`git diff --numstat` on the changed contents, which gives for an index the added and the removed
lines, and whether its output was cut. -/
structure Services where
  sha256 : List UInt8 → String
  parseSnapshot : List UInt8 → Option Snapshot
  parseSummary : List UInt8 → Option ChangeSummary
  numstat : List (Option (List UInt8) × Option (List UInt8)) →
    Except String (List (ℕ × Option ℕ × Option ℕ) × Bool)

/-- The object directory: file names with their bytes. -/
abbrev Objects := List (String × List UInt8)

/-- The text of a record in an object file. -/
def Json.bytes (v : Json) : List UInt8 := v.render.toUTF8.data.toList

/-- `u8::is_ascii_hexdigit`. -/
def isAsciiHexdigit (b : UInt8) : Bool :=
  (48 ≤ b && b ≤ 57) || (65 ≤ b && b ≤ 70) || (97 ≤ b && b ≤ 102)

namespace Object

/-- `attach`: give a record read back its storage directory. -/
def attach (o : Object) : Object := { o with attached := true }

/-- `path`, with the bytes of the file it leads to. -/
def path (objects : Objects) (o : Object) : Except String (List UInt8) := do
  bailIf (o.key.utf8ByteSize ≠ 64 ∨ ¬o.key.toUTF8.data.toList.all isAsciiHexdigit) "快照引用无效"
  bailIf (¬o.attached) "快照存储目录缺失"
  let bytes ← orError "快照对象缺失" (objects.lookup o.key)
  bailIf (bytes.length ≠ o.size) "快照对象已改变"
  .ok bytes

/-- `CheckedReader`, read to its end. -/
def checked (svc : Services) (objects : Objects) (o : Object) : Except String (List UInt8) := do
  let bytes ← o.path objects
  bailIf (svc.sha256 bytes ≠ o.key) "快照对象校验失败"
  .ok bytes

/-- `read`: a record. -/
def read {α : Type} (svc : Services) (objects : Objects) (parse : List UInt8 → Option α)
    (o : Object) : Except String α := do
  let bytes ← o.path objects
  let value ← orError "expected value" (parse bytes)
  bailIf (svc.sha256 bytes ≠ o.key) "快照对象校验失败"
  .ok value

end Object

/-- `save_json`, `save_file`: a file under its hash, unless there is one. -/
def Objects.save (svc : Services) (objects : Objects) (bytes : List UInt8) :
    Except String (Object × Objects) := do
  let key := svc.sha256 bytes
  let objects :=
    if (objects.lookup key).isSome then objects else objects ++ [(key, bytes)]
  let o : Object := { key, size := bytes.length, attached := true }
  let _ ← o.path objects
  .ok (o, objects)

namespace Contents

def attach : Contents → Contents
  | legacy bytes => legacy bytes
  | object o => object o.attach

/-- What a record keeps of contents: not where their object lies. -/
def stored : Contents → Contents
  | legacy bytes => legacy bytes
  | object o => object { o with attached := false }

def digest (svc : Services) : Contents → String
  | legacy bytes => svc.sha256 bytes
  | object o => o.key

def len : Contents → ℕ
  | legacy bytes => bytes.length
  | object o => o.size

/-- `PartialEq`. -/
def same (svc : Services) : Contents → Contents → Bool
  | legacy a, legacy b => a = b
  | a, b => a.digest svc = b.digest svc

/-- `matches`: the bytes of a file against the recorded ones. -/
def «matches» (svc : Services) (c : Contents) (bytes : List UInt8) : Bool :=
  bytes.length = c.len ∧ svc.sha256 bytes = c.digest svc

/-- `write_to`, `write_to_file`: the bytes that are written. -/
def load (svc : Services) (objects : Objects) : Contents → Except String (List UInt8)
  | legacy bytes => .ok bytes
  | object o => o.checked svc objects

/-- These bytes are the recorded ones: a record knows bytes by their number and their hash. -/
def Records (svc : Services) (c : Contents) (bytes : List UInt8) : Prop :=
  bytes.length = c.len ∧ svc.sha256 bytes = c.digest svc

theorem matches_iff {svc : Services} {c : Contents} {bytes : List UInt8} :
    c.matches svc bytes = true ↔ c.Records svc bytes := by
  simp [«matches», Records]

end Contents

namespace Snapshot

/-- `attach`. -/
def attach (s : Snapshot) : Snapshot :=
  { s with
    storage := true
    manifest := s.manifest.map Object.attach
    files := s.files.map fun (path, c) => (path, c.map Contents.attach) }

/-- What a record keeps: `storage` and the place of the objects are not serialised. -/
def stored (s : Snapshot) : Snapshot :=
  { s with
    storage := false
    manifest := s.manifest.map fun o => { o with attached := false }
    files := s.files.map fun (path, c) => (path, c.map Contents.stored) }

/-- `materialized`: the whole snapshot, when the record only has its object. -/
def materialized (svc : Services) (objects : Objects) (s : Snapshot) : Except String Snapshot :=
  match s.manifest with
  | none => .ok s
  | some manifest => do
    let result ← manifest.read svc objects svc.parseSnapshot
    .ok { (if s.storage then result.attach else result) with manifest := none }

/-- `persist`: move the files of a snapshot to an object. -/
def persist (svc : Services) (objects : Objects) (s : Snapshot) :
    Except String (Snapshot × Objects) :=
  if s.manifest.isSome then .ok (s, objects)
  else if s.storage then do
    let (o, objects) ← objects.save svc s.toJson.bytes
    .ok ({ s with
      files := []
      modes := []
      manifest := some o
      unavailable := some "快照使用独立存储，请使用新版 Server 读取。"
      rootIdentity := none }, objects)
  else .ok (s, objects)

/-- The contents of a path, none for one that is absent or could not be read. -/
def contents (s : Snapshot) (path : String) : Option Contents := (s.files.lookup path).join

end Snapshot

end LatteWork
