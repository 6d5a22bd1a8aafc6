import LatteWork.Workbench.References

/-!
# Links and files in a text

What a message names: the links and paths that are written as Markdown, bare addresses, and paths in
inline code. Fenced examples are left out.
-/

namespace LatteWork

namespace Resources

/-- What `new URL` finds in an address. -/
structure Url where
  protocol : String
  username : String
  password : String
  hostname : String
  href : String
  deriving DecidableEq, Repr, Inhabited

/-- `webLink`. `parse` is `new URL`, none where it throws. -/
def webLink (parse : String → Option Url) (value : String) : Option String :=
  if 8192 < utf16Length value then none
  else
    match parse value with
    | none => none
    | some url =>
      if (url.protocol = "https:" ∨ url.protocol = "http:") ∧ url.username = "" ∧ url.password = "" ∧
          url.hostname ≠ "tauri.localhost" ∧ url.hostname ≠ "ipc.localhost" then some url.href
      else none

section decodeURI

/-- A byte behind a percent sign. -/
def percentByte : List Char → Option (UInt8 × List Char)
  | '%' :: a :: b :: rest =>
    match hexDigit a, hexDigit b with
    | some x, some y => some (UInt8.ofNat (16 * x + y), rest)
    | _, _ => none
  | _ => none
where
  hexDigit (c : Char) : Option ℕ :=
    if '0' ≤ c ∧ c ≤ '9' then some (c.toNat - 48)
    else if 'a' ≤ c ∧ c ≤ 'f' then some (c.toNat - 87)
    else if 'A' ≤ c ∧ c ≤ 'F' then some (c.toNat - 55)
    else none

/-- So many bytes, each behind a percent sign. -/
def percentBytes : ℕ → List Char → Option (List UInt8 × List Char)
  | 0, text => some ([], text)
  | n + 1, text => do
    let (b, text) ← percentByte text
    let (bytes, text) ← percentBytes n text
    some (b :: bytes, text)

/-- The bytes of the character that begins with this one. -/
def encodedLength (b : UInt8) : Option ℕ :=
  if b < 0x80 then some 1
  else if 0xC0 ≤ b ∧ b < 0xE0 then some 2
  else if 0xE0 ≤ b ∧ b < 0xF0 then some 3
  else if 0xF0 ≤ b ∧ b < 0xF8 then some 4
  else none

/-- One escaped character. -/
def percentChar (text : List Char) : Option (Char × List Char) := do
  let (b, _) ← percentByte text
  let n ← encodedLength b
  let (bytes, rest) ← percentBytes n text
  let c ← bytes.toByteArray.utf8DecodeChar? 0
  guard (c.utf8Size = n)
  some (c, rest)

/-- What `decodeURI` leaves escaped. -/
def reserved (c : Char) : Bool := c ∈ ";/?:@&=+$,#".toList

/-- The loop of `decodeURI`, which gets no longer a text than this. -/
def decodeLoop : ℕ → List Char → Option (List Char)
  | _, [] => some []
  | 0, _ => none
  | fuel + 1, c :: rest =>
    if c ≠ '%' then (decodeLoop fuel rest).map (c :: ·)
    else do
      let (d, behind) ← percentChar (c :: rest)
      let decoded ← decodeLoop fuel behind
      some ((if reserved d then (c :: rest).take 3 else [d]) ++ decoded)

/-- `decodeURI`, none where it throws. -/
def decodeURI (text : List Char) : Option (List Char) := decodeLoop text.length text

end decodeURI

/-- `value.replace(/^<|>$/g, "")`. -/
def unbracket (value : List Char) : List Char :=
  let value := if value.head? = some '<' then value.tail else value
  if value.getLast? = some '>' then value.dropLast else value

/-- Digits, and what follows them, if there is one. -/
def digits (text : List Char) : Option (List Char) :=
  match text with
  | c :: _ => if c.isDigit then some (text.dropWhile Char.isDigit) else none
  | [] => none

/-- `/(?:#L\d+(?:-L?\d+)?|:\d+(?::\d+)?)$/`, from the first character on. -/
def isPosition : List Char → Bool
  | '#' :: 'L' :: rest =>
    match digits rest with
    | some ('-' :: 'L' :: rest) => digits rest = some []
    | some ('-' :: rest) => digits rest = some []
    | behind => behind = some []
  | ':' :: rest =>
    match digits rest with
    | some (':' :: rest) => digits rest = some []
    | behind => behind = some []
  | _ => false

/-- A path without the position in the file. -/
def withoutPosition : List Char → List Char
  | [] => []
  | c :: rest => if isPosition (c :: rest) then [] else c :: withoutPosition rest

/-- `/^[a-z][a-z\d+.-]*:/i`. -/
def hasScheme : List Char → Bool
  | [] => false
  | c :: rest =>
    c.isAlpha && (rest.dropWhile fun d => d.isAlphanum || d = '+' || d = '.' || d = '-').head? = some ':'

/-- `artifactPath`. -/
def artifactPath (value : List Char) : Option (List Char) :=
  let path := unbracket value
  let path := (decodeURI path).getD path
  let path := withoutPosition path
  if path = [] ∨ 4096 < utf16Length (String.ofList path) ∨ path.any (·.toNat < 32) ∨ hasScheme path ∨
      ['/', '/'].isPrefixOf path ∨ ['#'].isPrefixOf path then none
  else some path

def extensions : List String :=
  ["md", "markdown", "mdx", "txt", "rst", "adoc", "asciidoc", "org", "tex", "pdf", "doc", "docx", "odt",
    "rtf", "html", "htm", "epub", "mobi", "ppt", "pptx", "odp", "key", "pages", "numbers", "xls", "xlsx",
    "ods", "csv", "tsv", "png", "jpg", "jpeg", "gif", "webp", "svg", "avif", "heic", "bmp", "tiff", "tif",
    "mp3", "wav", "m4a", "aac", "flac", "ogg", "mp4", "mov", "webm", "m4v"]

def documentNames : List String :=
  ["readme", "license", "licence", "notice", "copying", "changelog", "changes", "authors",
    "contributing", "code_of_conduct", "security", "install", "todo"]

/-- `toLowerCase`, of the characters that it makes ASCII ones of. -/
def toLowerCase (c : Char) : Char := if c.toNat = 0x212A then 'k' else c.toLower

/-- `value.split(c).at(-1)`. -/
def lastPart (c : Char) (value : List Char) : List Char := (value.splitOn c).getLast?.getD []

/-- The first two branches of `isTaskResourceFile`, for the last part of a path. -/
def isDocument (name : List Char) : Bool :=
  String.ofList name ∈ documentNames ||
    String.ofList (if '.' ∈ name then lastPart '.' name else []) ∈ extensions

/-- `isTaskResourceFile`. An attachment has its own name, which has none itself. -/
def isTaskResourceFile (path : List Char) (directory : Bool) (attachmentName : List Char) : Bool :=
  if directory then false
  else
    let name := (lastPart '/' path).map toLowerCase
    isDocument name ||
      ('.' ∉ name && attachmentName ≠ [] && isDocument ((lastPart '/' attachmentName).map toLowerCase))

/-- The arguments of the collector's `file`. -/
structure FileCall where
  value : List Char
  title : List Char := []
  product : Bool := false
  directory : Bool := false
  attachmentName : List Char := []
  deriving DecidableEq, Repr, Inhabited

/-- What a text names. -/
inductive Found where
  | link (value title : List Char)
  | file (call : FileCall)
  deriving DecidableEq, Repr, Inhabited

/-- `/^ {0,3}(`{3,}|~{3,})/`: the marker of a fence, and what follows it. -/
def fenceMarker (line : List Char) : Option (List Char × List Char) :=
  if 3 < (line.takeWhile (· = ' ')).length then none
  else
    match line.dropWhile (· = ' ') with
    | [] => none
    | c :: rest =>
      if (c = '`' ∨ c = '~') ∧ 3 ≤ ((c :: rest).takeWhile (· = c)).length then
        some ((c :: rest).takeWhile (· = c), (c :: rest).dropWhile (· = c))
      else none

/-- The lines outside of fences. -/
def proseLines : Option (List Char) → List (List Char) → List (List Char)
  | _, [] => []
  | some fence, line :: lines =>
    match fenceMarker line with
    | some (marker, behind) =>
      if marker.head? = fence.head? ∧ fence.length ≤ marker.length ∧ jsTrim behind = [] then
        proseLines none lines
      else proseLines (some fence) lines
    | none => proseLines (some fence) lines
  | none, line :: lines =>
    match fenceMarker line with
    | some (marker, _) => proseLines (some marker) lines
    | none => line :: proseLines none lines

def prose (body : List Char) : List Char :=
  ['\n'].intercalate (proseLines none (body.splitOn '\n'))

/-- `\s*\)`, and what follows it. -/
def closing (text : List Char) : Option (List Char) :=
  match text.dropWhile jsSpace with
  | ')' :: rest => some rest
  | _ => none

def isQuote (c : Char) : Bool := c = '"' || c = '\''

/-- `[^\n]*?["']\s*\)`, and what follows it. -/
def closingTitle : List Char → Option (List Char)
  | [] => none
  | c :: rest =>
    if c = '\n' then none
    else
      match (if isQuote c then closing rest else none) with
      | some behind => some behind
      | none => closingTitle rest

/-- `(?:\s+["'][^\n]*?["'])?\s*\)`, and what follows it. -/
def linkEnd (text : List Char) : Option (List Char) :=
  let titled :=
    match text.dropWhile jsSpace with
    | c :: rest => if isQuote c ∧ text.head?.any jsSpace then closingTitle rest else none
    | [] => none
  titled.or (closing text)

/-- `\(\s*(<[^>]+>|[^\s)]+)(?:\s+["'][^\n]*?["'])?\s*\)`: the target, and what follows the link. -/
def linkTarget (text : List Char) : Option (List Char × List Char) :=
  match text with
  | '(' :: rest =>
    let target := rest.dropWhile jsSpace
    let bracketed :=
      match target with
      | '<' :: inner =>
        match inner.takeWhile (· ≠ '>'), inner.dropWhile (· ≠ '>') with
        | c :: path, '>' :: behind => (linkEnd behind).map fun rest => ('<' :: c :: path ++ ['>'], rest)
        | _, _ => none
      | _ => none
    let inTarget (c : Char) : Bool := !jsSpace c && c ≠ ')'
    let plain :=
      match target.takeWhile inTarget with
      | [] => none
      | path => (linkEnd (target.dropWhile inTarget)).map fun rest => (path, rest)
    bracketed.or plain
  | _ => none

/-- A Markdown link or image at the start of a text: its title, its target, and what follows it. -/
def markdownLink (text : List Char) : Option (List Char × List Char × List Char) :=
  let text :=
    match text with
    | '!' :: rest => rest
    | _ => text
  match text with
  | '[' :: rest =>
    match rest.dropWhile (· ≠ ']') with
    | ']' :: behind =>
      (linkTarget behind).map fun (target, behind) => (rest.takeWhile (· ≠ ']'), target, behind)
    | _ => none
  | _ => none

/-- The Markdown links of a text that is no longer than this, and the rest of it. -/
def markdownLinks : ℕ → List Char → List (List Char × List Char) × List Char
  | _, [] => ([], [])
  | 0, text => ([], text)
  | fuel + 1, c :: rest =>
    match markdownLink (c :: rest) with
    | some (title, target, behind) =>
      let (links, text) := markdownLinks fuel behind
      ((title, target) :: links, text)
    | none =>
      let (links, text) := markdownLinks fuel rest
      (links, c :: text)

/-- `[^\s<>`"'\[\]）。，；！？]`. -/
def inAddress (c : Char) : Bool := !jsSpace c && c ∉ "<>`\"'[]）。，；！？".toList

/-- `/https?:\/\/[^\s<>`"'\[\]）。，；！？]+/` at the start of a text, and what follows it. -/
def address (text : List Char) : Option (List Char × List Char) :=
  let scheme := if "https://".toList.isPrefixOf text then "https://".toList else "http://".toList
  if scheme.isPrefixOf text then
    match (text.drop scheme.length).takeWhile inAddress with
    | [] => none
    | path => some (scheme ++ path, (text.drop scheme.length).dropWhile inAddress)
  else none

/-- Closing brackets that no opening one belongs to are not part of an address. -/
def balance : ℕ → List Char → List Char
  | 0, url => url
  | fuel + 1, url =>
    if url.getLast? = some ')' ∧ url.count '(' < url.count ')' then balance fuel url.dropLast else url

/-- An address without the punctuation behind it. -/
def trimAddress (url : List Char) : List Char :=
  let url := (url.reverse.dropWhile (· ∈ ".,;!?".toList)).reverse
  balance url.length url

/-- The addresses of a text that is no longer than this. -/
def addresses : ℕ → List Char → List (List Char)
  | _, [] => []
  | 0, _ => []
  | fuel + 1, c :: rest =>
    match address (c :: rest) with
    | some (url, behind) => trimAddress url :: addresses fuel behind
    | none => addresses fuel rest

/-- `/`((?:\/|\.\/)[^`\n]+)`/` at the start of a text: the path, and what follows it. -/
def codePath (text : List Char) : Option (List Char × List Char) :=
  let inside (lead rest : List Char) : Option (List Char × List Char) :=
    match rest.takeWhile (fun c => c ≠ '`' && c ≠ '\n'), rest.dropWhile (fun c => c ≠ '`' && c ≠ '\n') with
    | c :: path, '`' :: behind => some (lead ++ c :: path, behind)
    | _, _ => none
  match text with
  | '`' :: '/' :: rest => inside ['/'] rest
  | '`' :: '.' :: '/' :: rest => inside ['.', '/'] rest
  | _ => none

/-- `/\/[^/]+\.[^/]+$/`. -/
def hasFileName (path : List Char) : Bool :=
  '/' ∈ path && (lastPart '/' path).tail.dropLast.contains '.'

/-- The paths in inline code, of a text that is no longer than this. -/
def codePaths : ℕ → List Char → List (List Char)
  | _, [] => []
  | 0, _ => []
  | fuel + 1, c :: rest =>
    match codePath (c :: rest) with
    | some (path, behind) =>
      if hasFileName path then path :: codePaths fuel behind else codePaths fuel behind
    | none => codePaths fuel rest

/-- What `scan` finds in a text without a manifest, in the order in which it does. -/
def found (parse : String → Option Url) (body : List Char) : List Found :=
  let prose := prose body
  let (links, rest) := markdownLinks prose.length prose
  links.map (fun (title, target) =>
      let value := unbracket target
      if (webLink parse (String.ofList value)).isSome then .link value title
      else .file { value, title }) ++
    (addresses rest.length rest).map (fun url => .link url []) ++
    (codePaths rest.length rest).map fun path => .file { value := path }

end Resources

end LatteWork
