import LatteWork.Lib.Runs
import LatteWork.Server.Attachments
import LatteWork.Snapshot.Disk

/-!
# Files outside a project

What a project may show of the files outside its folder. A grant is for one file, or for a directory
with all that is below it, and a project has at most so many.
-/

namespace LatteWork

open Fallible Attachments

/-- `Component`. A name is its bytes. -/
inductive PathComponent where
  | rootDir
  | curDir
  | parentDir
  | normal (name : List UInt8)
  deriving DecidableEq, Repr

/-- `Path::components`: separators in a row are one, and a step to where one is counts only in
front. -/
def pathComponents (path : List UInt8) : List PathComponent :=
  let slash : UInt8 := 47
  let dot : UInt8 := 46
  let named := (path.splitOn slash).zipIdx.filterMap fun part =>
    if part.1 = [] then none
    else if part.1 = [dot] then if part.2 = 0 then some .curDir else none
    else if part.1 = [dot, dot] then some .parentDir
    else some (.normal part.1)
  if path.head? = some slash then .rootDir :: named else named

def pathBytes (path : String) : List UInt8 := path.toUTF8.toList

/-- `FileEntry` as JSON. -/
def Attachments.FileEntry.toJson (entry : FileEntry) : Json :=
  .obj [("name", .str entry.name), ("path", .str entry.path), ("directory", .bool entry.directory)]

/-- The primary key of a row of `reference_access`. -/
structure GrantKey where
  projectId : String
  path : String
  deriving DecidableEq, Repr

/-- The database with its table `reference_access`, its rows by their primary key. -/
structure GrantStore where
  store : Store := {}
  referenceAccess : List (GrantKey × Bool) := []
  deriving Inhabited

namespace GrantStore

def maxGrants : ℕ := 512

/-- The rows of a project. -/
def rows (s : GrantStore) (project : String) : List (GrantKey × Bool) :=
  s.referenceAccess.filter (·.1.projectId = project)

/-- `grant_reference`. A new row needs its project. -/
def grantReference (s : GrantStore) (project path : String) (directory : Bool) :
    Except String GrantStore := do
  let known := (s.referenceAccess.lookup ⟨project, path⟩).isSome
  bailIf (¬((s.rows project).length < maxGrants ∨ known)) "可预览的项目外文件数量已达上限"
  bailIf (s.store.projects.all (·.id ≠ project)) "FOREIGN KEY constraint failed"
  .ok { s with referenceAccess := Assoc.put ⟨project, path⟩ directory s.referenceAccess }

/-- A row as it is listed. -/
def accessEntry (row : GrantKey × Bool) : FileEntry where
  name := (((components row.1.path).getLast?).filter (· ≠ "..")).getD row.1.path
  path := row.1.path
  directory := row.2

/-- The loop of `reference_access`. -/
def listAccess (count bytes : ℕ) : List (GrantKey × Bool) → List FileEntry × Bool
  | [] => ([], false)
  | row :: rest =>
    let entry := accessEntry row
    let bytes := bytes + entry.toJson.size
    if count = maxGrants ∨ maxFrame / 2 < bytes then ([], true)
    else
      let (entries, truncated) := listAccess (count + 1) bytes rest
      (entry :: entries, truncated)

/-- `ORDER BY path`. -/
def byPath (a b : GrantKey × Bool) : Prop := a.1.path ≤ b.1.path

instance : DecidableRel byPath := fun a b => inferInstanceAs (Decidable (a.1.path ≤ b.1.path))

/-- `reference_access`. -/
def listReferences (s : GrantStore) (project : String) : Except String (List FileEntry × Bool) := do
  let _ ← s.store.project project
  .ok (listAccess 0 0 (((s.rows project).insertionSort byPath).take 513))

/-- `revoke_reference_access`, and whether there was such a grant. -/
def revokeReferenceAccess (s : GrantStore) (project path : String) :
    Except String (GrantStore × Bool) := do
  let _ ← s.store.project project
  .ok ({ s with referenceAccess := Assoc.drop ⟨project, path⟩ s.referenceAccess },
    (s.referenceAccess.lookup ⟨project, path⟩).isSome)

/-- `reference_allowed`. -/
def referenceAllowed (s : GrantStore) (project : String) (target : List UInt8) : Bool :=
  (((s.rows project).insertionSort byPath).take 512).any fun row =>
    pathComponents target = pathComponents (pathBytes row.1.path) ||
      row.2 && decide (pathComponents (pathBytes row.1.path) <+: pathComponents target)

end GrantStore

inductive GrantOp where
  | grant (project path : String) (directory : Bool)
  | revoke (project path : String)
  deriving DecidableEq, Repr

namespace GrantStore

def apply (s : GrantStore) : GrantOp → Except String GrantStore
  | .grant project path directory => s.grantReference project path directory
  | .revoke project path => (s.revokeReferenceAccess project path).map (·.1)

/-- An attempted operation. A refused one changes nothing. -/
def step (s : GrantStore) (o : GrantOp) : GrantStore := Runs.attempt apply s o

def after (s : GrantStore) (ops : List GrantOp) : GrantStore := Runs.run step s ops

/-- A database with some projects, and no grants. -/
def empty (projects : List Project) : GrantStore := { store := { projects } }

end GrantStore

end LatteWork
