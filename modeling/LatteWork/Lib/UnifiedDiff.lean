import LatteWork.Lib.Fields
import Mathlib.Data.Nat.Notation

/-!
# Unified diffs

What a diff of one path is made of: a section for each file that is compared, in a section its
hunks, and in a hunk the lines of both sides. The numbers in the header of a hunk are those of its
lines.
-/

namespace UnifiedDiff

/-- A text without a line break. -/
structure Line where
  chars : List Char
  free : '\n' ∉ chars

/-- What says that the line before it has no end. -/
def noNewline : List Char := "\\ No newline at end of file".toList

/-- A line of a hunk. A line without text that both sides have may be written without its blank. -/
inductive BodyLine where
  | context (text : Line)
  | bare
  | removed (text : Line)
  | added (text : Line)
  | unended

namespace BodyLine

def raw : BodyLine → List Char
  | context text => ' ' :: text.chars
  | bare => []
  | removed text => '-' :: text.chars
  | added text => '+' :: text.chars
  | unended => noNewline

/-- The line is one of the old side. -/
def onOld : BodyLine → Bool
  | context _ | bare | removed _ => true
  | added _ | unended => false

/-- The line is one of the new side. -/
def onNew : BodyLine → Bool
  | context _ | bare | added _ => true
  | removed _ | unended => false

end BodyLine

/-- The counts of a hunk are those of its lines. -/
structure Hunk where
  oldStart : ℕ
  oldCount : ℕ
  newStart : ℕ
  newCount : ℕ
  heading : Line
  body : List BodyLine
  old_count : body.countP BodyLine.onOld = oldCount
  new_count : body.countP BodyLine.onNew = newCount

/-- A start and a count, which is left out where it is one. -/
def range (start count : ℕ) : List Char :=
  (Nat.repr start).toList ++ if count = 1 then [] else ',' :: (Nat.repr count).toList

namespace Hunk

def header (h : Hunk) : List Char :=
  "@@ -".toList ++ (range h.oldStart h.oldCount ++ (" +".toList ++
    (range h.newStart h.newCount ++ (" @@".toList ++ h.heading.chars))))

def raws (h : Hunk) : List (List Char) := h.header :: h.body.map BodyLine.raw

end Hunk

/-- The names of a file and its hunks. -/
structure Patch where
  oldName : Line
  newName : Line
  first : Hunk
  more : List Hunk

namespace Patch

def hunks (p : Patch) : List Hunk := p.first :: p.more

def names (p : Patch) : List (List Char) :=
  ["--- ".toList ++ p.oldName.chars, "+++ ".toList ++ p.newName.chars]

def raws (p : Patch) : List (List Char) := p.names ++ p.hunks.flatMap Hunk.raws

end Patch

/-- A line in front of the hunks. It begins with a word. -/
structure Header where
  text : Line
  word : ∃ c rest, text.chars = c :: rest ∧ c ∉ ['+', '-', ' ', '@']

/-- One file: modes, renames and other headers, and its patch where there is one to show. -/
structure FileDiff where
  headers : List Header
  patch : Option Patch

def FileDiff.raws (f : FileDiff) : List (List Char) :=
  f.headers.map (·.text.chars) ++ (f.patch.map Patch.raws).getD []

/-- The lines of a diff. -/
def raws (d : List FileDiff) : List (List Char) := d.flatMap FileDiff.raws

/-- The text of a diff: every line has its end. -/
def text (d : List FileDiff) : List Char := Fields.join '\n' (raws d)

/-! ### No line has a line break -/

theorem BodyLine.raw_free (l : BodyLine) : '\n' ∉ l.raw := by
  cases l with
  | context text => simpa [raw] using text.free
  | bare => simp [raw]
  | removed text => simpa [raw] using text.free
  | added text => simpa [raw] using text.free
  | unended => decide +kernel

theorem digits_free (n : ℕ) : '\n' ∉ Nat.toDigits 10 n := fun h =>
  absurd (Nat.isDigit_of_mem_toDigits (by omega) (Nat.le_refl _) h) (by decide)

theorem range_free (start count : ℕ) : '\n' ∉ range start count := by
  unfold range
  split_ifs <;> simp [digits_free]

theorem Hunk.raws_free (h : Hunk) : ∀ l ∈ h.raws, '\n' ∉ l := by
  intro l hl
  rcases List.mem_cons.1 hl with rfl | hl
  · simp [header, range_free, h.heading.free]
  · obtain ⟨b, -, rfl⟩ := List.mem_map.1 hl
    exact b.raw_free

theorem FileDiff.raws_free (f : FileDiff) : ∀ l ∈ f.raws, '\n' ∉ l := by
  intro l hl
  rcases List.mem_append.1 hl with hl | hl
  · obtain ⟨h, -, rfl⟩ := List.mem_map.1 hl
    exact h.text.free
  · cases hp : f.patch with
    | none => simp [hp] at hl
    | some p =>
      rw [hp, Option.map_some, Option.getD_some, Patch.raws, List.mem_append] at hl
      rcases hl with hl | hl
      · simp only [Patch.names, List.mem_cons, List.not_mem_nil, or_false] at hl
        rcases hl with rfl | rfl
        · simp [p.oldName.free]
        · simp [p.newName.free]
      · obtain ⟨h, -, hl⟩ := List.mem_flatMap.1 hl
        exact h.raws_free l hl

/-- The lines of a diff are read back. -/
theorem splitOn_text (d : List FileDiff) : (text d).splitOn '\n' = raws d ++ [[]] := by
  have hfree : ∀ l ∈ raws d, '\n' ∉ l := by
    intro l hl
    obtain ⟨f, -, hl⟩ := List.mem_flatMap.1 hl
    exact f.raws_free l hl
  have h := Fields.splitOn_join (q := []) List.not_mem_nil hfree
  rwa [List.append_nil] at h

end UnifiedDiff
