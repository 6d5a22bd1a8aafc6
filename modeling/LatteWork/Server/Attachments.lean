import LatteWork.Lib.Assoc
import LatteWork.Lib.Program
import LatteWork.Store.Sessions

/-!
# Pasted attachments

A file is sent to the server in chunks. Until it is finished its bytes are in a temporary file of
the attachment directory, and the size that was declared for it is reserved there.
-/

namespace LatteWork

open Assoc

/-- A directory: what is no regular file has no bytes. -/
structure Dir where
  entries : List (String × Option (List UInt8))
  nodup : (entries.map (·.1)).Nodup

namespace Dir

variable (d : Dir)

/-- The bytes of a regular file. -/
def bytes (name : String) : Option (List UInt8) := (d.entries.lookup name).join

def put (name : String) (data : List UInt8) : Dir :=
  ⟨Assoc.put name (some data) d.entries, nodup_put d.nodup⟩

def unlink (name : String) : Dir := ⟨drop name d.entries, nodup_drop d.nodup⟩

/-- The bytes of all regular files. -/
def stored : ℕ := total (fun o => (o.getD []).length) d.entries

end Dir

namespace Attachments

def maxFile : ℕ := 64 * 1024 * 1024

def maxCache : ℕ := 2 * 1024 * 1024 * 1024

/-- The milliseconds after which an upload that is not used has lapsed. -/
def lapse : ℕ := 600 * 1000

/-- `Pending`. The temporary file is known by its name in the directory. -/
structure Pending where
  file : String
  name : String
  size : ℕ
  written : ℕ
  touched : ℕ
  deriving DecidableEq, Repr, Inhabited

structure FileEntry where
  name : String
  path : String
  directory : Bool
  deriving DecidableEq, Repr, Inhabited

end Attachments

open Attachments in
/-- `Attachments`. `root` is the directory's path where that is UTF-8. -/
structure Attachments where
  root : Option String
  dir : Dir
  pending : List (String × Pending) := []

namespace Attachments

/-- What the system does in one call: the time, the names it gives out, and how far what it is
asked for goes well. A write that fails has written some of its data. -/
structure Call where
  now : ℕ
  readable : Bool := true
  id : String := ""
  temp : Option String := none
  fails : Option ℕ := none
  synced : Bool := true
  persisted : Bool := true
  deriving DecidableEq, Repr, Inhabited

/-- The bytes still to come. -/
def reserved (a : Attachments) : ℕ := total (fun p => p.size - p.written) a.pending

/-- An upload is taken out, and its temporary file is removed with it. -/
def forget (id : String) (a : Attachments) : Attachments :=
  match a.pending.lookup id with
  | some p => { a with dir := a.dir.unlink p.file, pending := drop id a.pending }
  | none => a

def lapsed (now : ℕ) (p : Pending) : Prop := lapse ≤ now - p.touched

instance (now : ℕ) (p : Pending) : Decidable (lapsed now p) :=
  inferInstanceAs (Decidable (_ ≤ _))

/-- The `retain` of `begin`. -/
def retain (now : ℕ) (a : Attachments) : Attachments :=
  ((a.pending.filter fun p => lapsed now p.2).map (·.1)).foldl (fun a id => a.forget id) a

/-- An upload is put in with an empty temporary file. One of the same identifier is dropped. -/
def insert (id file name : String) (size now : ℕ) (a : Attachments) : Attachments :=
  let a := a.forget id
  { a with
    dir := a.dir.put file []
    pending := put id { file, name, size, written := 0, touched := now } a.pending }

/-- Some data is appended to the temporary file of an upload. -/
def append (p : Pending) (data : List UInt8) (a : Attachments) : Attachments :=
  { a with dir := a.dir.put p.file ((a.dir.bytes p.file).getD [] ++ data) }

def fileName (id : String) (p : Pending) : String := id ++ "-" ++ p.name

/-- The temporary file of an upload is given its own name. -/
def publish (id : String) (p : Pending) (a : Attachments) : Attachments :=
  { a with
    dir := (a.dir.unlink p.file).put (fileName id p) ((a.dir.bytes p.file).getD [])
    pending := drop id a.pending }

/-- `begin`. -/
def begin (c : Call) (name : String) (size : ℕ) : Prog Attachments String String := do
  Prog.update (retain c.now)
  Prog.bailIf (maxFile < size) "单个粘贴附件不能超过 64 MiB"
  Prog.bailIf (name = "" ∨ 180 < name.utf8ByteSize ∨
    (name.toList.any fun ch => ch = '/' || ch = '\\' || ch.toNat = 0) ∨ name = "." ∨ name = ".." ∨
    name.toList.any Store.isControl) "附件文件名无效"
  let a ← Prog.current
  Prog.bailIf (8 ≤ a.pending.length) "正在处理的附件过多，请稍后重试"
  Prog.bailIf (c.readable = false) "read_dir"
  Prog.bailIf (4096 < a.dir.entries.length) "附件临时目录已满"
  Prog.bailIf (maxCache < a.dir.stored + a.reserved + size) "附件临时目录已达到 2 GiB 上限"
  let file ← Prog.orError "NamedTempFile" c.temp
  -- the file is created anew or not at all
  Prog.bailIf (a.dir.entries.lookup file).isSome "NamedTempFile"
  Prog.update (insert c.id file name size c.now)
  return c.id

/-- `chunk`. -/
def chunk (c : Call) (id : String) (offset : ℕ) (data : List UInt8) :
    Prog Attachments String Unit := do
  let a ← Prog.current
  let p ← Prog.orError "附件上传已失效，请重新粘贴" (a.pending.lookup id)
  Prog.bailIf (lapsed c.now p ∨ data = [] ∨ 65536 < data.length ∨ offset ≠ p.written ∨
    p.size < p.written + data.length) "附件分块或偏移无效"
  match c.fails with
  | some count =>
    Prog.update (append p (data.take count))
    Prog.fail "write_all"
  | none =>
    Prog.update (append p data)
    Prog.update fun a =>
      { a with
        pending := put id { p with written := p.written + data.length, touched := c.now }
          a.pending }

/-- `finish`. An upload that was taken out and could not be kept goes with its file. -/
def finish (c : Call) (id : String) : Prog Attachments String FileEntry := do
  let a ← Prog.current
  let p ← Prog.orError "附件上传已失效，请重新粘贴" (a.pending.lookup id)
  Prog.bailIf (p.written ≠ p.size ∨ lapsed c.now p) "附件内容不完整，请重新粘贴"
  if c.synced = false ∨ c.persisted = false ∨ (a.dir.entries.lookup (fileName id p)).isSome then
    Prog.update (forget id)
    Prog.fail "persist_noclobber"
  else
    Prog.update (publish id p)
    let root ← Prog.orError "附件路径不是 UTF-8" a.root
    return { name := p.name, path := root ++ "/" ++ fileName id p, directory := false }

inductive Op where
  | begin (name : String) (size : ℕ)
  | chunk (id : String) (offset : ℕ) (data : List UInt8)
  | finish (id : String)
  | abort (id : String)
  deriving DecidableEq, Repr, Inhabited

inductive Answer where
  | begun (id : String)
  | ok
  | finished (entry : FileEntry)
  deriving DecidableEq, Repr, Inhabited

/-- One request of a client. -/
def serve : Call × Op → Prog Attachments String (List Answer)
  | (c, .begin name size) => do
    let id ← begin c name size
    return [.begun id]
  | (c, .chunk id offset data) => do
    chunk c id offset data
    return [.ok]
  | (c, .finish id) => do
    let entry ← finish c id
    return [.finished entry]
  | (_, .abort id) => do
    Prog.update (forget id)
    return [.ok]

end Attachments

end LatteWork
