import LatteWork.Lib.Assoc
import LatteWork.Lib.Runs

/-!
# The drafts of the composer

A draft is kept for each key while the app runs. What was sent is taken out when its acknowledgement
comes, unless the draft was edited meanwhile: each draft object belongs to a version, which is the
object of the edit it goes back to.
-/

namespace LatteWork

variable {ε : Type*}

/-- `Draft["references"]`. The entries are compared as objects. -/
structure DraftReferences (ε : Type*) where
  scope : String
  entries : List ε
  deriving DecidableEq, Repr

structure Draft (ε : Type*) where
  text : String
  skillCreator : Option Bool
  references : DraftReferences ε
  deriving DecidableEq, Repr

/-- `Partial<Draft>`. -/
structure DraftPatch (ε : Type*) where
  text : Option String := none
  skillCreator : Option (Option Bool) := none
  references : Option (DraftReferences ε) := none

namespace Draft

/-- The content of `empty`. -/
def empty : Draft ε := { text := "", skillCreator := none, references := ⟨"", []⟩ }

/-- `{ ...previous, ...patch }`. -/
def patched (previous : Draft ε) (patch : DraftPatch ε) : Draft ε where
  text := patch.text.getD previous.text
  skillCreator := patch.skillCreator.getD previous.skillCreator
  references := patch.references.getD previous.references

/-- `sameReferences`: a scope that is set, or taken away, while there are no entries is none. -/
def sameReferences [DecidableEq ε] (previous next : DraftReferences ε) : Bool :=
  previous.entries.length = next.entries.length &&
    next.entries.zipIdx.all (fun entry => previous.entries[entry.2]? = some entry.1) &&
    (next.scope = previous.scope ||
      next.entries.isEmpty && (previous.scope = "" || next.scope = ""))

/-- `sameContent`. -/
def sameContent [DecidableEq ε] (previous next : Draft ε) : Bool :=
  previous.text = next.text && previous.skillCreator = next.skillCreator &&
    sameReferences previous.references next.references

end Draft

/-- `DraftStore`, and the draft objects there are. An object is its place among them, and the first
one is `empty`. -/
structure DraftStore (ε : Type*) where
  objects : List (Draft ε) := [Draft.empty]
  drafts : List (String × ℕ) := []
  versions : List (ℕ × ℕ) := []

namespace DraftStore

def get (s : DraftStore ε) (key : String) : ℕ := (s.drafts.lookup key).getD 0

/-- `this.drafts.has(key)`. -/
def has (s : DraftStore ε) (key : String) : Bool := (s.drafts.lookup key).isSome

def draft (s : DraftStore ε) (d : ℕ) : Draft ε := (s.objects[d]?).getD Draft.empty

/-- `this.versions.get(draft) ?? draft`. -/
def version (s : DraftStore ε) (d : ℕ) : ℕ := (s.versions.lookup d).getD d

def update [DecidableEq ε] (s : DraftStore ε) (key : String) (patch : DraftPatch ε) : DraftStore ε :=
  let previous := s.get key
  let next := (s.draft previous).patched patch
  let made := s.objects.length
  { objects := s.objects ++ [next]
    versions := Assoc.put made
      (if (s.draft previous).sameContent next then s.version previous else made) s.versions
    drafts := Assoc.put key made s.drafts }

def adopt (s : DraftStore ε) (key : String) (draft : ℕ) : DraftStore ε :=
  if s.has key then s else { s with drafts := Assoc.put key draft s.drafts }

def isCurrent (s : DraftStore ε) (key : String) (submitted : ℕ) : Bool :=
  s.version (s.get key) = s.version submitted

def clear (s : DraftStore ε) (key : String) (submitted : ℕ) : DraftStore ε :=
  if s.isCurrent key submitted then { s with drafts := Assoc.drop key s.drafts } else s

end DraftStore

/-- What is done with the store, and that a draft object is made elsewhere. -/
inductive DraftOp (ε : Type*) where
  | update (key : String) (patch : DraftPatch ε)
  | adopt (key : String) (draft : ℕ)
  | clear (key : String) (submitted : ℕ)
  | object (draft : Draft ε)

namespace DraftStore

/-- One operation. A draft can only be given when there is such an object. -/
def step [DecidableEq ε] (s : DraftStore ε) : DraftOp ε → DraftStore ε
  | .update key patch => s.update key patch
  | .adopt key draft => if draft < s.objects.length then s.adopt key draft else s
  | .clear key submitted => if submitted < s.objects.length then s.clear key submitted else s
  | .object draft => { s with objects := s.objects ++ [draft] }

def after [DecidableEq ε] (s : DraftStore ε) (ops : List (DraftOp ε)) : DraftStore ε := Runs.run step s ops

end DraftStore

end LatteWork
