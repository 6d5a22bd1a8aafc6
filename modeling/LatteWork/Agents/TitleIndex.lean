import LatteWork.Agents.ChildHistory
import LatteWork.Store.Sessions

/-!
# The title of a native session

Claude writes the names of a session into its transcript file, as records of their own. The file
only grows, and the index reads on where it stopped, a bounded number of bytes at a time.
-/

namespace LatteWork

/-- `WINDOW`. -/
def titleWindow : ℕ := 64 * 1024

/-- `SCAN_BUDGET`. -/
def scanBudget : ℕ := 4 * 1024 * 1024

/-- `Title`. -/
structure Title where
  text : String
  custom : Bool
  deriving DecidableEq, Repr, Inhabited

structure Titles where
  custom : Option String := none
  generated : Option String := none
  summary : Option String := none
  deriving DecidableEq, Repr, Inhabited

/-- `valid_title`. -/
def validTitle (value : String) : Bool :=
  trim value ≠ "" && value.length ≤ 200 && !value.toList.any Store.isControl

/-- A title under its name in a record. -/
def titleIn (value : Json) (name : String) : Option String :=
  (((value.get? name).bind Json.str?).filter validTitle).map trim

namespace Titles

-- `from_slice` of `serde_json`
variable (parse : List UInt8 → Option Json)

/-- `record`. -/
def record (t : Titles) (line : List UInt8) : Titles :=
  match parse line with
  | none => t
  | some value =>
    match (value.get? "type").bind Json.str? with
    | some "custom-title" => { t with custom := (titleIn value "customTitle").or t.custom }
    | some "ai-title" => { t with generated := (titleIn value "aiTitle").or t.generated }
    | some "summary" => { t with summary := (titleIn value "summary").or t.summary }
    | _ => t

/-- `title`. -/
def title (t : Titles) : Option Title :=
  (t.custom.map fun text => { text, custom := true }).or
    ((t.generated.or t.summary).map fun text => { text, custom := false })

end Titles

/-- What `Metadata` tells of a file. -/
structure Metadata where
  identity : ℕ × ℕ
  len : ℕ
  modified : ℤ × ℤ
  deriving DecidableEq, Repr, Inhabited

structure TitleIndex where
  identity : ℕ × ℕ
  size : ℕ
  modified : ℤ × ℤ
  offset : ℕ := 0
  line : List UInt8 := []
  oversized : Bool := false
  titles : Titles := {}
  deriving Inhabited

namespace TitleIndex

variable (parse : List UInt8 → Option Json)

/-- `new`. -/
def new (metadata : Metadata) : TitleIndex :=
  { identity := metadata.identity, size := metadata.len, modified := metadata.modified }

/-- `read`, up to the file. -/
def begin (index : TitleIndex) (metadata : Metadata) : TitleIndex :=
  let index := if index.identity ≠ metadata.identity ∨ metadata.len < index.size ∨
      (metadata.len = index.size ∧ index.modified ≠ metadata.modified) then new metadata else index
  { index with size := metadata.len, modified := metadata.modified }

/-- The loop of `read` over one part: a line with its end, or the rest. -/
def part (index : TitleIndex) (part : List UInt8) : TitleIndex :=
  let index :=
    if !index.oversized && index.line.length + part.length ≤ titleWindow then
      { index with line := index.line ++ part }
    else { index with line := [], oversized := true }
  if part.getLast?.any isNewline then
    { index with
      titles := if index.oversized then index.titles else index.titles.record parse index.line
      line := []
      oversized := false }
  else index

/-- `read`. -/
def read (index : TitleIndex) (content : List UInt8) (metadata : Metadata) :
    Option Title × TitleIndex :=
  let index := index.begin metadata
  let bytes := (content.drop index.offset).take (min scanBudget (index.size - index.offset))
  let index := (Lines.split isNewline bytes).foldl (part parse) index
  let index := { index with offset := index.offset + bytes.length }
  (if index.offset = index.size ∧ index.line = [] ∧ index.oversized = false then index.titles.title
    else none, index)

end TitleIndex

/-- A transcript file and the index of its titles. -/
structure TitleFile where
  content : List UInt8 := []
  index : Option TitleIndex := none
  deriving Inhabited

/-- What happens: the agent writes; the metadata of the file are taken, and the index reads it, or
cannot; the index is dropped to make room for others. -/
inductive TitleOp where
  | grow (bytes : List UInt8)
  | read (metadata : Metadata)
  | failed (metadata : Metadata)
  | evict
  deriving Inhabited

namespace TitleFile

variable (parse : List UInt8 → Option Json)

/-- The index that reads, a new one if there is none. -/
def opened (f : TitleFile) (metadata : Metadata) : TitleIndex := f.index.getD (.new metadata)

/-- The file has no fewer bytes than any metadata of it say. -/
def step (f : TitleFile) : TitleOp → TitleFile
  | .grow bytes => { f with content := f.content ++ bytes }
  | .read metadata =>
    if f.content.length < metadata.len then f
    else { f with index := some ((f.opened metadata).read parse f.content metadata).2 }
  | .failed metadata =>
    if f.content.length < metadata.len then f
    else { f with index := some ((f.opened metadata).begin metadata) }
  | .evict => { f with index := none }

end TitleFile

end LatteWork
