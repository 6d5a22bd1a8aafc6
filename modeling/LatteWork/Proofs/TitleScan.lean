import LatteWork.Agents.TitleIndex
import LatteWork.Lib.Runs

/-!
# Reading titles on

However a file grows, and wherever the index stops in it, the index has what one scan of the file
up to there finds. So a title it gives is the title of the file (`TitleFile.title_index`).
-/

namespace LatteWork

/-- The lines of a file that are read for titles. -/
def windowLines (content : List UInt8) : List (List UInt8) :=
  (Lines.complete isNewline content).filter (·.length ≤ titleWindow)

section Titles

variable (parse : List UInt8 → Option Json)

/-- The title that a line gives, if it is a record of this type. -/
def titleOf (type name : String) (line : List UInt8) : Option String :=
  (parse line).bind fun value =>
    if (value.get? "type").bind Json.str? = some type then titleIn value name else none

/-- The last title of a type. -/
def lastTitle (type name : String) (lines : List (List UInt8)) : Option String :=
  (lines.filterMap (titleOf parse type name)).getLast?

/-- The title of a file, by one scan of it: the last one of the user, else the last generated one,
else the last summary. -/
def scannedTitle (content : List UInt8) : Option Title :=
  let lines := windowLines content
  ((lastTitle parse "custom-title" "customTitle" lines).map fun text => { text, custom := true }).or
    (((lastTitle parse "ai-title" "aiTitle" lines).or
      (lastTitle parse "summary" "summary" lines)).map fun text => { text, custom := false })

variable {parse}

theorem record_eq (t : Titles) (line : List UInt8) :
    t.record parse line =
      { custom := (titleOf parse "custom-title" "customTitle" line).or t.custom
        generated := (titleOf parse "ai-title" "aiTitle" line).or t.generated
        summary := (titleOf parse "summary" "summary" line).or t.summary } := by
  unfold Titles.record titleOf
  rcases parse line with _ | value
  · rfl
  · simp only [Option.bind_some]
    split
    · rename_i h
      simp [h]
    · rename_i h
      simp [h]
    · rename_i h
      simp [h]
    · rename_i hcustom hgenerated hsummary
      rw [if_neg hcustom, if_neg hgenerated, if_neg hsummary]
      rfl

theorem lastTitle_concat (type name : String) (lines : List (List UInt8)) (line : List UInt8) :
    lastTitle parse type name (lines ++ [line]) =
      (titleOf parse type name line).or (lastTitle parse type name lines) := by
  rw [lastTitle, List.filterMap_append, List.getLast?_append, lastTitle]
  rcases h : titleOf parse type name line with _ | text <;> simp [h]

/-- Records that come later win. -/
theorem foldl_record (lines : List (List UInt8)) :
    lines.foldl (Titles.record parse) {} =
      { custom := lastTitle parse "custom-title" "customTitle" lines
        generated := lastTitle parse "ai-title" "aiTitle" lines
        summary := lastTitle parse "summary" "summary" lines } := by
  induction lines using List.reverseRecOn with
  | nil => rfl
  | append_singleton lines line ih =>
    rw [List.foldl_concat, ih, record_eq, lastTitle_concat, lastTitle_concat, lastTitle_concat]

end Titles

namespace TitleIndex

variable {parse : List UInt8 → Option Json} {text : List UInt8} {i : TitleIndex}

/-- The index has what one scan of a text finds. -/
structure Scanned (parse : List UInt8 → Option Json) (text : List UInt8) (i : TitleIndex) :
    Prop where
  oversized : i.oversized = decide (titleWindow < (Lines.tail isNewline text).length)
  line : i.line = if i.oversized then [] else Lines.tail isNewline text
  titles : i.titles = (windowLines text).foldl (Titles.record parse) {}

/-- A part is put behind the line as long as the line is within the window. -/
theorem Scanned.part_eq (h : i.Scanned parse text) (part : List UInt8) :
    i.part parse part =
      let line := Lines.tail isNewline text ++ part
      if part.getLast?.any isNewline then
        { i with
          titles := if line.length ≤ titleWindow then i.titles.record parse line else i.titles
          line := []
          oversized := false }
      else
        { i with
          line := if line.length ≤ titleWindow then line else []
          oversized := decide (titleWindow < line.length) } := by
  have hline := h.line
  have ho := h.oversized
  unfold TitleIndex.part
  dsimp only
  by_cases hfits : (Lines.tail isNewline text ++ part).length ≤ titleWindow
  · have hlength := hfits
    rw [List.length_append] at hlength
    have ho : i.oversized = false := ho.trans (decide_eq_false (by omega))
    rw [ho, if_neg Bool.false_ne_true] at hline
    simp [ho, hline, hlength, Nat.not_lt_of_le hlength]
  · rw [List.length_append] at hfits
    have hno : (!i.oversized && decide (i.line.length + part.length ≤ titleWindow)) = false := by
      rcases hi : i.oversized with _ | _
      · rw [hi, if_neg Bool.false_ne_true] at hline
        simpa [hline] using hfits
      · rfl
    simp [hno, Nat.lt_of_not_le hfits, hfits]

/-- One part is read. -/
theorem Scanned.part (h : i.Scanned parse text) {part : List UInt8}
    (hpart : Lines.Whole isNewline part ∨ ∀ b ∈ part, isNewline b = false) :
    (i.part parse part).Scanned parse (text ++ part) := by
  rw [h.part_eq part]
  dsimp only
  rcases hpart with hwhole | hfree
  · have hlast : part.getLast?.any isNewline = true := by
      obtain ⟨body, a, rfl, ha, -⟩ := hwhole
      simp [ha]
    have hcut := Lines.cut_append_whole hwhole text
    have htail : Lines.tail isNewline (text ++ part) = [] := congrArg Prod.snd hcut
    have hlines : windowLines (text ++ part) = windowLines text ++
        [Lines.tail isNewline text ++ part].filter (·.length ≤ titleWindow) := by
      rw [windowLines, Lines.complete, hcut, List.filter_append]
      rfl
    rw [if_pos hlast]
    refine ⟨by rw [htail]; rfl, by rw [htail]; rfl, ?_⟩
    rw [hlines, List.foldl_append, ← h.titles]
    by_cases hfits : (Lines.tail isNewline text ++ part).length ≤ titleWindow
    · rw [List.filter_cons_of_pos (by simpa using hfits), if_pos hfits]
      rfl
    · rw [List.filter_cons_of_neg (by simpa using hfits), if_neg hfits]
      rfl
  · have hlast : part.getLast?.any isNewline = false := by
      rcases hlast : part.getLast? with _ | a
      · rfl
      · exact hfree a (List.mem_of_getLast? hlast)
    have hcut := Lines.cut_append_free hfree text
    have htail : Lines.tail isNewline (text ++ part) = Lines.tail isNewline text ++ part :=
      congrArg Prod.snd hcut
    have hlines : windowLines (text ++ part) = windowLines text := by
      rw [windowLines, Lines.complete, hcut]
      rfl
    rw [if_neg (by simp [hlast])]
    refine ⟨by rw [htail], ?_, by rw [hlines]; exact h.titles⟩
    dsimp only
    rw [htail]
    by_cases hfits : (Lines.tail isNewline text ++ part).length ≤ titleWindow
    · rw [if_pos hfits, decide_eq_false (Nat.not_lt_of_le hfits), if_neg Bool.false_ne_true]
    · rw [if_neg hfits, decide_eq_true (Nat.lt_of_not_le hfits), if_pos rfl]

theorem Scanned.parts {parts : List (List UInt8)}
    (hparts : ∀ part ∈ parts, Lines.Whole isNewline part ∨ ∀ b ∈ part, isNewline b = false)
    (h : i.Scanned parse text) :
    (parts.foldl (TitleIndex.part parse) i).Scanned parse (text ++ parts.flatten) := by
  induction parts generalizing text i with
  | nil => rwa [List.flatten_nil, List.append_nil]
  | cons part parts ih =>
    rw [List.flatten_cons, ← List.append_assoc]
    exact ih (fun p hp => hparts p (List.mem_cons_of_mem _ hp))
      (h.part (hparts part List.mem_cons_self))

/-- The index has read a front of the file, which was no longer at the last metadata. -/
structure Reads (parse : List UInt8 → Option Json) (content : List UInt8) (i : TitleIndex) :
    Prop where
  offset : i.offset ≤ i.size
  size : i.size ≤ content.length
  scanned : i.Scanned parse (content.take i.offset)

variable {content : List UInt8} {metadata : Metadata}

theorem reads_new (hlen : metadata.len ≤ content.length) : (new metadata).Reads parse content :=
  ⟨Nat.zero_le _, hlen, ⟨rfl, rfl, rfl⟩⟩

theorem Reads.begin (h : i.Reads parse content) (hlen : metadata.len ≤ content.length) :
    (i.begin metadata).Reads parse content ∧ (i.begin metadata).size = metadata.len := by
  unfold TitleIndex.begin
  dsimp only
  split_ifs with hreset
  · have hnew := @reads_new parse content metadata hlen
    exact ⟨⟨Nat.zero_le _, hlen, hnew.scanned⟩, rfl⟩
  · have hgrown : i.size ≤ metadata.len := by
      by_contra hlt
      exact hreset (.inr (.inl (Nat.lt_of_not_le hlt)))
    exact ⟨⟨h.offset.trans hgrown, hlen,
      ⟨h.scanned.oversized, h.scanned.line, h.scanned.titles⟩⟩, rfl⟩

theorem Reads.grow (h : i.Reads parse content) (bytes : List UInt8) :
    i.Reads parse (content ++ bytes) := by
  refine ⟨h.offset, ?_, ?_⟩
  · rw [List.length_append]
    exact h.size.trans (Nat.le_add_right _ _)
  · rw [List.take_append_of_le_length (h.offset.trans h.size)]
    exact h.scanned

theorem part_rest (index : TitleIndex) (part : List UInt8) :
    (index.part parse part).offset = index.offset ∧ (index.part parse part).size = index.size := by
  unfold TitleIndex.part
  dsimp only
  split_ifs <;> exact ⟨rfl, rfl⟩

theorem foldl_rest (parts : List (List UInt8)) (index : TitleIndex) :
    (parts.foldl (TitleIndex.part parse) index).offset = index.offset ∧
      (parts.foldl (TitleIndex.part parse) index).size = index.size := by
  induction parts generalizing index with
  | nil => exact ⟨rfl, rfl⟩
  | cons part parts ih =>
    obtain ⟨hoffset, hsize⟩ := ih (index.part parse part)
    obtain ⟨hoffset', hsize'⟩ := @part_rest parse index part
    exact ⟨hoffset.trans hoffset', hsize.trans hsize'⟩

/-- What is read on is scanned on. -/
theorem Reads.read (h : i.Reads parse content) (hlen : metadata.len ≤ content.length) :
    (i.read parse content metadata).2.Reads parse content ∧
      (i.read parse content metadata).2.size = metadata.len := by
  obtain ⟨hbegin, hsize⟩ := h.begin hlen
  unfold TitleIndex.read
  dsimp only
  generalize i.begin metadata = index at hbegin hsize
  generalize hbytes : (content.drop index.offset).take (min scanBudget (index.size - index.offset)) =
    bytes
  have hlength : bytes.length ≤ index.size - index.offset := by
    rw [← hbytes, List.length_take]
    omega
  have hfront : content.take index.offset ++ bytes = content.take (index.offset + bytes.length) := by
    rw [List.take_add, ← hbytes, List.length_take]
    congr 1
    rw [List.take_eq_take_iff]
    omega
  have hscanned := hbegin.scanned.parts fun part (hpart : part ∈ Lines.split isNewline bytes) =>
    Lines.mem_split hpart
  rw [Lines.split_flatten, hfront] at hscanned
  obtain ⟨hoffset, hsize'⟩ := @foldl_rest parse (Lines.split isNewline bytes) index
  have hle := hbegin.offset
  refine ⟨⟨?_, ?_, ?_⟩, hsize'.trans hsize⟩
  · change _ + bytes.length ≤ _
    rw [hoffset, hsize']
    omega
  · exact hsize'.trans_le hbegin.size
  · change Scanned parse (content.take (_ + bytes.length)) _
    rw [hoffset]
    exact ⟨hscanned.oversized, hscanned.line, hscanned.titles⟩

/-- A title is given when all was read and no line is left open. -/
theorem Reads.title (h : i.Reads parse content) (hlen : metadata.len ≤ content.length) :
    (i.read parse content metadata).1 =
      if (i.read parse content metadata).2.offset = metadata.len ∧
          Lines.tail isNewline (content.take metadata.len) = [] then
        scannedTitle parse (content.take metadata.len)
      else none := by
  obtain ⟨hreads, hsize⟩ := h.read hlen
  have hgives : (i.read parse content metadata).1 =
      if (i.read parse content metadata).2.offset = (i.read parse content metadata).2.size ∧
          (i.read parse content metadata).2.line = [] ∧
          (i.read parse content metadata).2.oversized = false then
        (i.read parse content metadata).2.titles.title
      else none := rfl
  rw [hgives, hsize]
  generalize (i.read parse content metadata).2 = index at hreads
  by_cases hoffset : index.offset = metadata.len
  · have hscanned := hreads.scanned
    rw [hoffset] at hscanned
    have hopen : index.line = [] ∧ index.oversized = false ↔
        Lines.tail isNewline (content.take metadata.len) = [] := by
      rw [hscanned.line, hscanned.oversized]
      constructor
      · rintro ⟨hline, ho⟩
        rwa [ho, if_neg Bool.false_ne_true] at hline
      · intro htail
        simp [htail]
    have htitle : index.titles.title = scannedTitle parse (content.take metadata.len) := by
      rw [hscanned.titles, foldl_record]
      rfl
    rw [htitle]
    simp only [hoffset, true_and, hopen]
  · rw [if_neg fun h => hoffset h.1, if_neg fun h => hoffset h.1]

end TitleIndex

namespace TitleFile

variable {parse : List UInt8 → Option Json}

theorem opened_reads {f : TitleFile} {metadata : Metadata}
    (h : ∀ i, f.index = some i → i.Reads parse f.content)
    (hlen : metadata.len ≤ f.content.length) : (f.opened metadata).Reads parse f.content := by
  unfold opened
  rcases hi : f.index with _ | i
  · exact TitleIndex.reads_new hlen
  · exact h i hi

/-- Whatever happens to the file, its index has read a front of it. -/
theorem reads_run (ops : List TitleOp) : ∀ i, (Runs.run (step parse) {} ops).index = some i →
    i.Reads parse (Runs.run (step parse) {} ops).content := by
  refine Runs.run_keeps (P := fun f : TitleFile =>
    ∀ i, f.index = some i → i.Reads parse f.content) (fun i hi => by cases hi) ?_ ops
  intro f op h i hi
  cases op with
  | grow bytes => exact (h i hi).grow bytes
  | read metadata =>
    unfold step at hi ⊢
    dsimp only at hi ⊢
    split_ifs at hi ⊢ with hlen
    · exact h i hi
    · obtain rfl := Option.some.inj hi
      exact ((opened_reads h (Nat.le_of_not_lt hlen)).read (Nat.le_of_not_lt hlen)).1
  | failed metadata =>
    unfold step at hi ⊢
    dsimp only at hi ⊢
    split_ifs at hi ⊢ with hlen
    · exact h i hi
    · obtain rfl := Option.some.inj hi
      exact ((opened_reads h (Nat.le_of_not_lt hlen)).begin (Nat.le_of_not_lt hlen)).1
  | evict => cases hi

end TitleFile

end LatteWork
