import LatteWork.Server.Preview
import LatteWork.Snapshot.Frozen

/-!
# Previews of changed images

A changed image is read in chunks, each by a request of its own: from a file of the worktree, which
may change at any time, from a stored snapshot, or from a blob of the repository. A chunk tells the
version it is of.
-/

namespace LatteWork

open Fallible

structure ImagePreviewChunk where
  data : List UInt8
  mimeType : String
  size : ℕ
  next : ℕ
  hasMore : Bool
  version : String
  sha256 : Option String
  deriving DecidableEq, Repr, Inhabited

namespace ImagePreview

def limit : ℕ := 16 * 1024 * 1024

def raster (mime : String) : Bool :=
  mime = "image/png" || mime = "image/jpeg" || mime = "image/gif" || mime = "image/webp"

/-- `chunk`. -/
def chunk (data header : List UInt8) (size offset : ℕ) (version : String) (sha256 : Option String) :
    Except String ImagePreviewChunk := do
  bailIf (limit < size) "图片超过 16 MiB 预览上限"
  bailIf (size < offset ∨ 65536 < data.length ∨ size < offset + data.length) "图片预览偏移无效"
  let mime := Preview.mime header none
  bailIf (raster mime = false) "此版本不是支持预览的 PNG、JPEG、GIF 或 WebP 图片"
  let next := offset + data.length
  bailIf (next ≠ size ∧ data = []) "图片在读取期间发生变化，请刷新"
  .ok { data, mimeType := mime, size, next, hasMore := next < size, version, sha256 }

/-- What `Metadata` tells of a file, and its bytes. -/
structure Inode where
  isFile : Bool
  dev : ℕ
  ino : ℕ
  mtime : ℤ
  mtimeNsec : ℤ
  bytes : List UInt8
  deriving DecidableEq, Repr, Inhabited

namespace Inode

def identity (m : Inode) : String :=
  toString m.dev ++ ":" ++ toString m.ino ++ ":" ++ toString m.mtime ++ ":" ++
    toString m.mtimeNsec ++ ":" ++ toString m.bytes.length

/-- What is recorded of a file beside its bytes. -/
def recorded (m : Inode) : ℕ × ℕ × ℤ × ℤ × ℕ := (m.dev, m.ino, m.mtime, m.mtimeNsec, m.bytes.length)

end Inode

/-- A path over time: the file that `symlink_metadata` and `open` find there, what each file is, and
what a read of a file gives that begins and ends at these times. -/
structure LiveFile where
  lookup : ℕ → Option ℕ
  opened : ℕ → Option ℕ
  inode : ℕ → ℕ → Inode
  read : (file start stop offset count : ℕ) → List UInt8
  read_still : ∀ {file start stop : ℕ},
    (∀ t, start ≤ t → t ≤ stop → (inode file t).bytes = (inode file start).bytes) →
      ∀ offset count, read file start stop offset count =
        ((inode file start).bytes.drop offset).take count

namespace LiveFile

/-- A file that nobody changes. -/
def steady (bytes : List UInt8) : LiveFile where
  lookup _ := some 0
  opened _ := some 0
  inode _ _ := { isFile := true, dev := 0, ino := 0, mtime := 0, mtimeNsec := 0, bytes }
  read _ _ _ offset count := (bytes.drop offset).take count
  read_still _ _ _ := rfl

/-- Whatever changes a file changes what is recorded of it, and so does another file at its path. -/
structure Recorded (w : LiveFile) : Prop where
  still : ∀ {f s t}, s ≤ t → (w.inode f s).recorded = (w.inode f t).recorded →
    ∀ u, s ≤ u → u ≤ t → (w.inode f u).bytes = (w.inode f s).bytes
  same : ∀ {f g s t}, (w.inode f s).recorded = (w.inode g t).recorded →
    (w.inode f s).bytes = (w.inode g t).bytes

end LiveFile

/-- When a request looks at the path, opens it, looks at what it opened, and has read it. -/
structure Visit where
  stat : ℕ
  opened : ℕ
  fstat : ℕ
  done : ℕ
  opens : stat ≤ opened := by omega
  looks : opened ≤ fstat := by omega
  reads : fstat ≤ done := by omega

/-- `file`. -/
def file (w : LiveFile) (v : Visit) (offset : ℕ) (version sha256 : Option String) :
    Except String ImagePreviewChunk := do
  let metadata ← orError notFound ((w.lookup v.stat).map (w.inode · v.stat))
  bailIf (metadata.isFile = false) "图片预览仅支持普通文件"
  bailIf (limit < metadata.bytes.length ∨ metadata.bytes.length < offset) "图片过大或预览偏移无效"
  let file ← orError notFound (w.opened v.opened)
  bailIf (metadata.identity ≠ (w.inode file v.fstat).identity) "图片在读取期间发生变化，请刷新"
  let header := w.read file v.fstat v.done 0 512
  let data := w.read file v.fstat v.done offset 65536
  bailIf (metadata.identity ≠ (w.inode file v.done).identity) "图片在读取期间发生变化，请刷新"
  chunk data header metadata.bytes.length offset (version.getD metadata.identity) sha256

/-- `valid_oid`. -/
def validOid (value : String) : Bool :=
  (value.utf8ByteSize = 40 || value.utf8ByteSize = 64) && value.toUTF8.data.toList.all isAsciiHexdigit

/-- The end of `git_review::image_chunk`: a range of what `git cat-file blob` gives. -/
def gitChunk (blob : List UInt8) (oid : String) (offset : ℕ) : Except String ImagePreviewChunk := do
  bailIf (validOid oid = false) "Git 对象无效"
  let size := blob.length
  bailIf (limit < size ∨ size < offset) "图片过大或预览偏移无效"
  let header := blob.take (min size 512)
  let data := if offset < header.length then header.drop offset else []
  let skipped := if offset < header.length then header.length else offset
  let data := data ++ (blob.drop skipped).take (65536 - data.length)
  chunk data header size offset oid none

end ImagePreview

/-- `Contents::image_chunk`. -/
def Contents.imageChunk (svc : Services) (objects : Objects) (c : Contents) (offset : ℕ) :
    Except String ImagePreviewChunk :=
  let hash := c.digest svc
  match c with
  | .object o => do
    let bytes ← o.path objects
    ImagePreview.file (.steady bytes) ⟨0, 0, 0, 0, Nat.le_refl _, Nat.le_refl _, Nat.le_refl _⟩ offset
      (some hash) (some hash)
  | .legacy bytes => do
    bailIf (bytes.length < offset) "图片预览偏移无效"
    let stop := min (offset + 65536) bytes.length
    ImagePreview.chunk ((bytes.take stop).drop offset) (bytes.take (min bytes.length 512)) bytes.length
      offset hash (some hash)

/-- `Snapshot::image_chunk`. -/
def Snapshot.imageChunk (svc : Services) (objects : Objects) (s : Snapshot) (path : String)
    (offset : ℕ) : Except String (Option ImagePreviewChunk) := do
  validatePath path
  let s ← s.materialized svc objects
  match s.unavailable with
  | some error => .error error
  | none =>
    match s.files.lookup path with
    | some (some contents) => (contents.imageChunk svc objects offset).map some
    | some none => .error "此文件的快照内容不可用"
    | none => if s.truncated then .error "快照不完整，无法确认此文件版本" else .ok none

/-- `FrozenTurn::image_chunk`. -/
def FrozenTurn.imageChunk (svc : Services) (objects : Objects) (t : FrozenTurn) (path : String)
    (before : Bool) (offset : ℕ) : Except String (Option ImagePreviewChunk) := do
  validatePath path
  let page ← t.pageFor svc objects none (some path)
  let entry ← orError "文件不属于此轮已记录的变更" (page.entries.find? (·.path = path))
  if (before ∧ entry.status = "A") ∨ (before = false ∧ entry.status = "D") then .ok none
  else
    let snapshot := if before then t.before else t.after
    snapshot.imageChunk svc objects path offset

namespace ImagePreview

/-- What a request finds to be the side of the change that it is for. -/
inductive Side where
  | refused (error : String)
  | absent
  | turn (t : FrozenTurn) (before : Bool)
  | baseline (s : Snapshot)
  | working
  | blob (oid : String)
  deriving DecidableEq, Repr, Inhabited

/-- One load over time: what each of its requests finds, and when it reads a file of the worktree. -/
structure Schedule where
  path : String
  side : ℕ → Side
  objects : ℕ → Objects
  live : LiveFile
  visit : ℕ → Visit
  blob : String → List UInt8

/-- `Request::PreviewChange`. -/
def Schedule.respond (svc : Services) (w : Schedule) (i offset : ℕ) :
    Except String (Option ImagePreviewChunk) :=
  match w.side i with
  | .refused error => .error error
  | .absent => .ok none
  | .turn t before => t.imageChunk svc (w.objects i) w.path before offset
  | .baseline s => s.imageChunk svc (w.objects i) w.path offset
  | .working => (file w.live (w.visit i) offset none none).map some
  | .blob oid => (gitChunk (w.blob oid) oid offset).map some

end ImagePreview

end LatteWork
