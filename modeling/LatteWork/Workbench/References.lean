import LatteWork.Store.Sources
import LatteWork.Wire.JsonText
import LatteWork.Workbench.Activity

/-!
# Reference messages

A message that refers to files ends in a manifest of them, which the client writes behind the text
and hides again when the message is shown.
-/

namespace LatteWork

/-- `White_Space` and the line terminators of JavaScript. -/
def jsSpace (c : Char) : Bool :=
  let n := c.toNat
  (9 ≤ n && n ≤ 13) || n = 0x20 || n = 0xA0 || n = 0x1680 || (0x2000 ≤ n && n ≤ 0x200A) ||
    n = 0x2028 || n = 0x2029 || n = 0x202F || n = 0x205F || n = 0x3000 || n = 0xFEFF

/-- `String.prototype.trim`. -/
def jsTrim (text : List Char) : List Char :=
  ((text.dropWhile jsSpace).reverse.dropWhile jsSpace).reverse

inductive AttachmentKind where
  | image | video | file | text
  deriving DecidableEq, Repr, Inhabited

namespace AttachmentKind

def name : AttachmentKind → String
  | image => "image"
  | video => "video"
  | file => "file"
  | text => "text"

def ofName? (s : String) : Option AttachmentKind :=
  [image, video, file, text].find? fun kind => kind.name = s

end AttachmentKind

def imageExtensions : List String :=
  ["png", "jpg", "jpeg", "gif", "webp", "bmp", "tif", "tiff", "heic", "avif", "svg"]

def videoExtensions : List String := ["mp4", "mov", "webm", "mkv", "avi", "m4v", "mpeg", "mpg"]

/-- The name ends in a dot and one of the extensions, in either case. -/
def hasExtension (extensions : List String) (name : String) : Bool :=
  extensions.any fun e => ('.' :: e.toList).isSuffixOf (name.toList.map Char.toLower)

/-- `attachmentKind`. -/
def attachmentKind (name mime : String) : AttachmentKind :=
  if "image/".toList.isPrefixOf mime.toList || hasExtension imageExtensions name then .image
  else if "video/".toList.isPrefixOf mime.toList || hasExtension videoExtensions name then .video
  else .file

/-- `ComposerReference`. -/
structure ComposerReference where
  path : String
  name : String
  directory : Bool
  attachmentKind : Option AttachmentKind := none
  mimeType : Option String := none
  deriving DecidableEq, Repr, Inhabited

/-- `referenceKind`. -/
def referenceKind (entry : ComposerReference) : AttachmentKind :=
  entry.attachmentKind.getD (attachmentKind entry.name (entry.mimeType.getD ""))

def referenceMarker : String := "\n" ++ TaskSource.compactMarker

def legacyReferenceMarker : String := "\n" ++ TaskSource.marker

/-- `path.split("/").at(-1)`. -/
def lastSegment (path : String) : String := (pathParts path).getLast?.getD path

/-- One reference of a manifest. What can be derived again is left out. -/
def manifestEntry (entry : ComposerReference) : Json :=
  .obj ([("path", .str entry.path),
      ("type", .str (if entry.directory then "directory" else "file"))] ++
    (if entry.name ≠ lastSegment entry.path then [("name", .str entry.name)] else []) ++
    if entry.directory = false ∧ referenceKind entry ≠ .file then
      [("kind", .str (referenceKind entry).name)]
    else [])

/-- The text a manifest stands behind. -/
def promptText (text : String) : List Char :=
  if jsTrim text.toList = [] then "请查看所附文件。".toList else jsTrim text.toList

/-- `referencePrompt`. -/
def referencePrompt (text : String) (references : List ComposerReference) : String :=
  if references = [] then String.ofList (jsTrim text.toList)
  else
    String.ofList (promptText text) ++ referenceMarker ++ (Json.arr (references.map manifestEntry)).render

def manifestKeys : List String := ["path", "type", "name", "kind", "mime_type"]

/-- A field that may be left out, and is read where it is there. -/
def optionalField {α : Type} (entry : Json) (key : String) (read : Json → Option α) :
    Option (Option α) :=
  match entry.get? key with
  | none => some none
  | some v => (read v).map some

/-- An object without any other key. -/
def isEntry : Json → Bool
  | .obj fields => fields.all fun f => f.1 ∈ manifestKeys
  | _ => false

/-- What `referenceMessage` makes of one entry of a manifest. -/
def messageReference (entry : Json) : Option ComposerReference := do
  guard (isEntry entry = true)
  let path ← ((entry.get? "path").bind Json.str?).filter fun p =>
    p ≠ "" ∧ utf16Length p ≤ 4096 ∧ Char.ofNat 0 ∉ p.toList
  let directory ← ((entry.get? "type").bind Json.str?).bind fun t =>
    if t = "file" then some false else if t = "directory" then some true else none
  let attachmentKind ← optionalField entry "kind" fun v => v.str?.bind AttachmentKind.ofName?
  let name ← optionalField entry "name" fun v => v.str?.filter fun s => s ≠ "" ∧ utf16Length s ≤ 256
  let mimeType ← optionalField entry "mime_type" fun v => v.str?.filter fun s => utf16Length s ≤ 128
  some { path, name := name.getD (lastSegment path), directory, attachmentKind, mimeType }

/-- The last marker of a text: where it begins, and what follows it. -/
def lastMarker (text : List Char) : Option (ℕ × List Char) :=
  match rfind referenceMarker.toList 0 text, rfind legacyReferenceMarker.toList 0 text with
  | some a, some b => some (if b.1 ≤ a.1 then a else b)
  | found, none => found
  | none, found => found

structure ReferenceMessage where
  text : List Char
  references : List ComposerReference
  deriving DecidableEq, Repr

/-- The references of a manifest, if it is one of the client. -/
def manifestReferences (raw : List Char) : Option (List ComposerReference) :=
  if 128 * 1024 < utf16Length (String.ofList raw) then none
  else
    match Json.parse raw with
    | some (.arr entries) =>
      if entries = [] ∨ 20 < entries.length then none else entries.mapM messageReference
    | _ => none

/-- `referenceMessage`. -/
def referenceMessage (text : String) : ReferenceMessage :=
  match lastMarker text.toList with
  | none => ⟨text.toList, []⟩
  | some (index, raw) =>
    match manifestReferences raw with
    | some references => ⟨text.toList.take index, references⟩
    | none => ⟨text.toList, []⟩

end LatteWork
