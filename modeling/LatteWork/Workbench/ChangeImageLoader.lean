import LatteWork.Server.ImagePreview
import LatteWork.Workbench.SourceLoader

/-!
# Loading an image of a change

The client asks for one chunk after the other until it has the whole image, and gives up when a chunk
tells of another version than the one before it.
-/

namespace LatteWork

namespace ChangeImageLoader

structure ChangeImage where
  bytes : List UInt8
  mime : String
  deriving DecidableEq, Repr, Inhabited

/-- What `loadChangeImage` asks for before a request, behind it, and when it has all chunks. -/
structure Watch where
  valid : ℕ → Bool
  late : ℕ → Bool
  still : ℕ → Bool
  final : ℕ → Bool

/-- What the loop carries: the chunks so far, and what the last one told. -/
structure LoadState where
  bytes : List UInt8 := []
  offset : ℕ := 0
  size : ℕ := 0
  version : String := ""
  mime : String := ""
  hash : Option String := none
  deriving DecidableEq, Repr, Inhabited

/-- The chunk is none, or not one behind those before it. -/
def changed (st : LoadState) (chunk : ImagePreviewChunk) : Bool :=
  SourceLoader.maxSafeInteger < chunk.size || chunk.size = 0 || 16 * 1024 * 1024 < chunk.size ||
    65536 < chunk.data.length || chunk.next ≠ st.offset + chunk.data.length ||
    chunk.size < chunk.next || chunk.hasMore ≠ decide (chunk.next < chunk.size) ||
    (chunk.hasMore && chunk.data = []) || !ImagePreview.raster chunk.mimeType ||
    chunk.version = "" ||
    (st.offset ≠ 0 && (st.size ≠ chunk.size || st.version ≠ chunk.version ||
      st.mime ≠ chunk.mimeType || st.hash ≠ chunk.sha256))

/-- The chunks do not have the hash that they should have. -/
def corrupt (sha256 : List UInt8 → String) (bytes : List UInt8) : Option String → Bool
  | none => false
  | some hash => hash ≠ "" && sha256 bytes ≠ hash

/-- The loop of `loadChangeImage`, for so many requests. `respond` has the response to each of them,
none for one of another kind. -/
def loadLoop (respond : ℕ → ℕ → Option (Except String (Option ImagePreviewChunk)))
    (sha256 : List UInt8 → String) (watch : Watch) :
    ℕ → ℕ → LoadState → Option (Except String (Option ChangeImage))
  | 0, _, _ => none
  | fuel + 1, i, st =>
    if watch.valid i = false then some (.error "图片预览已取消")
    else if watch.late i then some (.error "图片预览读取超时")
    else
      match respond i st.offset with
      | some (.error e) => some (.error e)
      | none =>
        if watch.still i = false then some (.error "图片预览已取消")
        else some (.error "Server 不支持变更图片预览，请更新后重试")
      | some (.ok chunk) =>
        if watch.still i = false then some (.error "图片预览已取消")
        else
          match chunk with
          | none =>
            if st.offset ≠ 0 then some (.error "此图片版本在读取期间消失，请刷新") else some (.ok none)
          | some chunk =>
            if changed st chunk then some (.error "图片版本已改变或内容无效，请刷新")
            else
              let st := { bytes := st.bytes ++ chunk.data, offset := chunk.next, size := chunk.size
                          version := chunk.version, mime := chunk.mimeType, hash := chunk.sha256 }
              if chunk.hasMore then loadLoop respond sha256 watch fuel (i + 1) st
              else if corrupt sha256 st.bytes st.hash then some (.error "快照图片校验失败，无法预览")
              else if watch.final i = false then some (.error "图片预览已取消")
              else some (.ok (some { bytes := st.bytes, mime := st.mime }))

/-- More requests than any load makes. -/
def loadFuel : ℕ := 16 * 1024 * 1024 + 1

/-- `loadChangeImage`. -/
def loadChangeImage (respond : ℕ → ℕ → Option (Except String (Option ImagePreviewChunk)))
    (sha256 : List UInt8 → String) (watch : Watch) : Option (Except String (Option ChangeImage)) :=
  loadLoop respond sha256 watch loadFuel 0 {}

end ChangeImageLoader

end LatteWork
