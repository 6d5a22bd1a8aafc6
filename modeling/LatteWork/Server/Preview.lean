import LatteWork.Git.Review
import LatteWork.Server.Attachments

/-!
# Previews of files

A preview is read in chunks, each by a request of its own that opens the file anew. What a file is
follows from its first bytes.
-/

namespace LatteWork

namespace Preview

open Git in
/-- `from_utf8` finds nothing wrong but a character that is cut off at the end. -/
def textual : ℕ → List UInt8 → Bool
  | _, [] => true
  | skip + 1, _ :: rest => textual skip rest
  | 0, b :: rest =>
    match (b :: rest).toByteArray.utf8DecodeChar? 0 with
    | some c => textual (c.utf8Size - 1) rest
    | none => 0xC2 ≤ b && b ≤ 0xF4 && rest.length = brokenTail b rest

def ascii (s : String) : List UInt8 := s.toList.map fun c => UInt8.ofNat c.toNat

/-- `mime`, of the first bytes of a file and the extension of its path. -/
def mime (bytes : List UInt8) (extension : Option String) : String :=
  if ([0x89, 80, 78, 71, 13, 10, 26, 10] : List UInt8).isPrefixOf bytes then "image/png"
  else if ([0xFF, 0xD8, 0xFF] : List UInt8).isPrefixOf bytes then "image/jpeg"
  else if (ascii "GIF87a").isPrefixOf bytes || (ascii "GIF89a").isPrefixOf bytes then "image/gif"
  else if (ascii "RIFF").isPrefixOf bytes && (bytes.drop 8).take 4 = ascii "WEBP" then "image/webp"
  else if (ascii "%PDF-").isPrefixOf bytes then "application/pdf"
  else if (bytes.drop 4).take 4 = ascii "ftyp" &&
      extension ∉ [some "heic", some "heif", some "avif"] then "video/mp4"
  else if ([0x1A, 0x45, 0xDF, 0xA3] : List UInt8).isPrefixOf bytes && extension = some "webm" then
    "video/webm"
  else if !bytes.contains 0 && textual 0 bytes then "text/plain"
  else "application/octet-stream"

/-- What a path leads to. -/
inductive Node where
  | missing
  | directory (entries : List Attachments.FileEntry) (truncated : Bool)
  | file (bytes : List UInt8)
  | other
  deriving DecidableEq, Repr, Inhabited

structure SourcePreview where
  data : List UInt8
  mimeType : String
  size : ℕ
  next : ℕ
  hasMore : Bool
  deriving DecidableEq, Repr, Inhabited

inductive SourceResponse where
  | sourceDirectory (entries : List Attachments.FileEntry) (truncated : Bool)
  | sourcePreview (preview : SourcePreview)
  | other
  deriving DecidableEq, Repr, Inhabited

/-- The bytes of one chunk. -/
def chunkSize : ℕ := 65536

/-- The bytes a file is known by. -/
def headerSize : ℕ := 512

/-- `preview`, of what the path leads to when it is asked for. -/
def preview (extension : Option String) (node : Node) (offset : ℕ) : Except String SourceResponse :=
  match node with
  | .missing => .error "No such file or directory (os error 2)"
  | .directory entries truncated =>
    if offset ≠ 0 then .error "目录没有文件偏移" else .ok (.sourceDirectory entries truncated)
  | .other => .error "预览仅支持不超过 64 MiB 的普通文件"
  | .file bytes =>
    if 64 * 1024 * 1024 < bytes.length then .error "预览仅支持不超过 64 MiB 的普通文件"
    else if bytes.length < offset then .error "预览偏移无效"
    else
      let data := (bytes.drop offset).take chunkSize
      .ok (.sourcePreview {
        data
        mimeType := mime (bytes.take headerSize) extension
        size := bytes.length
        next := offset + data.length
        hasMore := offset + data.length < bytes.length })

end Preview

end LatteWork
