import LatteWork.Server.Preview

/-!
# Loading a source

The client asks for one chunk after the other until it has all it shows, and gives up when a chunk
tells of another file than the one before it.
-/

namespace LatteWork

namespace SourceLoader

open Preview

structure SourceData where
  bytes : List UInt8
  mime : String
  size : ℕ
  truncated : Bool
  directory : Option (List Attachments.FileEntry) := none
  deriving DecidableEq, Repr, Inhabited

/-- What the loop of `loadSource` asks for before a request and behind it. -/
structure Watch where
  valid : ℕ → Bool
  late : ℕ → Bool
  still : ℕ → Bool

/-- What the loop carries: the chunks so far, and what the last one told. -/
structure LoadState where
  bytes : List UInt8 := []
  offset : ℕ := 0
  mime : String := ""
  size : ℕ := 0
  deriving DecidableEq, Repr, Inhabited

def maxSafeInteger : ℕ := 2 ^ 53 - 1

/-- `/^(image\/|video\/|application\/pdf$)/`. -/
def isMedia (mime : String) : Bool :=
  "image/".toList.isPrefixOf mime.toList || "video/".toList.isPrefixOf mime.toList ||
    mime = "application/pdf"

/-- The most that is loaded. -/
def limit (full : Bool) (mime : String) : ℕ :=
  if full then 32 * 1024 * 1024
  else if isMedia mime then 16 * 1024 * 1024
  else if mime = "text/plain" then 512 * 1024
  else 65536

/-- The chunk is none, or not one behind those before it. -/
def changed (st : LoadState) (p : SourcePreview) : Bool :=
  65536 < p.data.length || maxSafeInteger < p.size || p.size < p.next ||
    p.next ≠ st.offset + p.data.length || (p.hasMore && p.data = []) ||
    (st.offset ≠ 0 && (p.mimeType ≠ st.mime || p.size ≠ st.size))

/-- The loop of `loadSource`, for so many requests. `respond` has the response to each of them. -/
def loadLoop (respond : ℕ → ℕ → Except String SourceResponse) (watch : Watch) (full : Bool) :
    ℕ → ℕ → LoadState → Option (Except String SourceData)
  | 0, _, _ => none
  | fuel + 1, i, st =>
    if watch.valid i = false then some (.error "来源预览已取消")
    else if watch.late i then some (.error "来源预览读取超时")
    else
      match respond i st.offset with
      | .error e => some (.error e)
      | .ok response =>
        if watch.still i = false then some (.error "来源预览已取消")
        else
          match response with
          | .sourceDirectory entries truncated =>
            some (.ok { bytes := [], mime := "inode/directory", size := 0, truncated
                        directory := some entries })
          | .other => some (.error "Server 不支持来源预览，请更新后重试")
          | .sourcePreview p =>
            if changed st p then some (.error "来源文件在读取期间发生变化，请刷新")
            else if (full || isMedia p.mimeType) ∧ limit full p.mimeType < p.size then
              some (.error ("来源超过 " ++ toString (limit full p.mimeType / 1024 / 1024) ++
                " MiB 预览上限"))
            else if limit full p.mimeType < p.next then some (.error "来源预览超出读取上限")
            else
              let st := { bytes := st.bytes ++ p.data, offset := p.next, mime := p.mimeType
                          size := p.size }
              if p.hasMore = false ∨ limit full p.mimeType ≤ st.offset then
                some (.ok { bytes := st.bytes, mime := st.mime, size := st.size
                            truncated := p.hasMore })
              else loadLoop respond watch full fuel (i + 1) st

/-- More requests than any load makes. -/
def loadFuel : ℕ := 32 * 1024 * 1024 + 1

/-- `loadSource`. -/
def loadSource (respond : ℕ → ℕ → Except String SourceResponse) (watch : Watch) (full : Bool) :
    Option (Except String SourceData) :=
  loadLoop respond watch full loadFuel 0 {}

end SourceLoader

end LatteWork
