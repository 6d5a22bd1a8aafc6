import LatteWork.Workbench.GitDiff

/-!
# What is shown of a diff

The lines of the first file that has hunks are shown as its hunk headers say. From its first hunk on
every line that begins with a sign counts as one of a side, the names of a file behind it too. What
is shown in two columns is what is shown in one.
-/

namespace LatteWork

namespace GitDiff

open UnifiedDiff

/-! ### Hunk headers -/

theorem behind_append (front rest : List Char) : behind front (front ++ rest) = some rest := by
  rw [behind, if_pos (List.prefix_append front rest), List.drop_left]

theorem behind_none {c d : Char} {front l : List Char} (h : l.head? = some d) (hne : d ≠ c) :
    behind (c :: front) l = none := by
  cases l with
  | nil => cases h
  | cons e l =>
    obtain rfl := Option.some.inj h
    rw [behind, if_neg]
    rintro ⟨t, ht⟩
    exact hne (List.cons.inj ht).1.symm

/-- The digits of a number are read up to what is no digit. -/
theorem number_digits (n : ℕ) {c : Char} {rest : List Char} (hc : c.isDigit = false) :
    number ((Nat.repr n).toList ++ c :: rest) = some (n, c :: rest) := by
  have hdigits : ∀ d ∈ Nat.toDigits 10 n, d.isDigit = true :=
    fun d hd => Nat.isDigit_of_mem_toDigits (by omega) (Nat.le_refl _) hd
  have htake : (Nat.toDigits 10 n ++ c :: rest).takeWhile (·.isDigit) = Nat.toDigits 10 n := by
    rw [List.takeWhile_append_of_pos hdigits, List.takeWhile_cons_of_neg (by simp [hc]),
      List.append_nil]
  have hdrop : (Nat.toDigits 10 n ++ c :: rest).dropWhile (·.isDigit) = c :: rest := by
    rw [List.dropWhile_append_of_pos hdigits, List.dropWhile_cons_of_neg (by simp [hc])]
  rw [Nat.toList_repr, number, htake, hdrop, if_neg Nat.toDigits_ne_nil,
    Nat.ofDigitChars_ten_toDigits]

theorem rangeStart_range (start count : ℕ) (rest : List Char) :
    rangeStart (range start count ++ ' ' :: rest) = some (start, ' ' :: rest) := by
  have hblank : ' '.isDigit = false := rfl
  have hcomma : ','.isDigit = false := rfl
  unfold rangeStart range
  split_ifs with hone
  · rw [List.append_nil, number_digits _ hblank, Option.map_some]
    have hnone : behind [','] (' ' :: rest) = none := behind_none rfl (by decide)
    simp only [hnone, Option.bind_none]
  · rw [List.append_assoc, List.cons_append, number_digits _ hcomma, Option.map_some]
    have hbehind : behind [','] (',' :: ((Nat.repr count).toList ++ ' ' :: rest)) =
        some ((Nat.repr count).toList ++ ' ' :: rest) := behind_append [','] _
    simp only [hbehind, Option.bind_some, number_digits _ hblank]

/-- The header of a hunk says where it begins on both sides. -/
theorem hunkStarts_header (h : Hunk) : hunkStarts h.header = some (h.oldStart, h.newStart) := by
  have hplus : " +".toList = [' ', '+'] := rfl
  have hat : " @@".toList = [' ', '@', '@'] := rfl
  have hmiddle : ∀ rest, rangeStart (range h.oldStart h.oldCount ++ (" +".toList ++ rest)) =
      some (h.oldStart, " +".toList ++ rest) := by
    intro rest
    rw [hplus, List.cons_append, rangeStart_range]
  have hlast : rangeStart (range h.newStart h.newCount ++ (" @@".toList ++ h.heading.chars)) =
      some (h.newStart, " @@".toList ++ h.heading.chars) := by
    rw [hat, List.cons_append, rangeStart_range]
  unfold hunkStarts Hunk.header
  simp only [Option.bind_eq_bind, behind_append, hmiddle, hlast, Option.bind_some]

/-- A line that begins otherwise is no header of a hunk. -/
theorem hunkStarts_none {raw : List Char} (h : raw.head? ≠ some '@') : hunkStarts raw = none := by
  have hbehind : behind "@@ -".toList raw = none := by
    have hat : "@@ -".toList = '@' :: ['@', ' ', '-'] := rfl
    rw [hat, behind, if_neg]
    rintro ⟨t, rfl⟩
    exact h rfl
  rw [hunkStarts, hbehind, Option.bind_eq_bind, Option.bind_none]

/-! ### One line after the other -/

/-- The lines that are shown, without a limit. -/
def shownFrom : DiffState → List (List Char) → List DiffLine
  | _, [] => []
  | s, raw :: rest => (parseLine s raw).2.toList ++ shownFrom (parseLine s raw).1 rest

/-- What is carried behind some lines. -/
def stateAfter (s : DiffState) (raws : List (List Char)) : DiffState :=
  raws.foldl (fun s raw => (parseLine s raw).1) s

theorem shownFrom_append : ∀ (s : DiffState) (raws more : List (List Char)),
    shownFrom s (raws ++ more) = shownFrom s raws ++ shownFrom (stateAfter s raws) more
  | _, [], _ => rfl
  | s, raw :: raws, more => by
    rw [List.cons_append, shownFrom, shownFrom, shownFrom_append, List.append_assoc]
    rfl

theorem stateAfter_append (s : DiffState) (raws more : List (List Char)) :
    stateAfter s (raws ++ more) = stateAfter (stateAfter s raws) more := List.foldl_append

theorem parseLine_nil (s : DiffState) : parseLine s [] = (s, none) := by
  have hnone : hunkStarts [] = none := hunkStarts_none (by simp)
  simp [parseLine, hnone]

/-- Every line is shown, unless it is empty. -/
theorem isSome_parseLine (s : DiffState) (raw : List Char) :
    (parseLine s raw).2.isSome ↔ raw ≠ [] := by
  constructor
  · rintro h rfl
    simp [parseLine_nil] at h
  · intro h
    unfold parseLine
    cases hunkStarts raw with
    | some p => rfl
    | none =>
      dsimp only
      split_ifs <;> rfl

theorem length_shownFrom (raws : List (List Char)) : ∀ s : DiffState,
    (shownFrom s raws).length = raws.countP fun raw => raw ≠ [] := by
  induction raws with
  | nil => exact fun _ => rfl
  | cons raw raws ih =>
    intro s
    rw [shownFrom, List.length_append, ih, List.countP_cons]
    have hsome := isSome_parseLine s raw
    cases hline : (parseLine s raw).2 with
    | none =>
      rw [hline] at hsome
      have hnil : raw = [] := by simpa using hsome
      simp [hnil]
    | some line =>
      rw [hline] at hsome
      have hne : raw ≠ [] := by simpa using hsome
      simp [hne]
      omega

/-- Within the limit every line is taken. -/
theorem parseLoop_lines {limit : Option ℕ} : ∀ {raws : List (List Char)} {s : DiffState}
    {lines : List DiffLine}, (∀ n, limit = some n → lines.length + raws.length ≤ n) →
    (parseLoop limit (raws ++ [[]]) s lines).1 = lines ++ shownFrom s raws
  | [], s, lines, _ => by
    rw [List.nil_append, parseLoop]
    split_ifs <;> simp [parseLoop, parseLine_nil, shownFrom]
  | raw :: raws, s, lines, h => by
    have hgo : limit.any (· ≤ lines.length) = false := by
      cases hl : limit with
      | none => rfl
      | some n =>
        have := h n hl
        rw [List.length_cons] at this
        simp
        omega
    have hlength : (parseLine s raw).2.toList.length ≤ 1 := by
      cases (parseLine s raw).2 <;> simp
    rw [List.cons_append, parseLoop, hgo, if_neg Bool.false_ne_true, parseLoop_lines, shownFrom,
      List.append_assoc]
    intro n hn
    have := h n hn
    rw [List.length_cons] at this
    rw [List.length_append]
    omega

/-! ### What the headers prescribe -/

def metaLine (raw : List Char) : DiffLine := ⟨.metadata, raw, none, none⟩

/-- A line of a hunk, where it has these numbers. -/
def shownBody (old next : ℕ) : BodyLine → DiffLine
  | .context text => ⟨.context, text.chars, some old, some next⟩
  | .bare => ⟨.context, [], some old, some next⟩
  | .removed text => ⟨.removed, text.chars, some old, none⟩
  | .added text => ⟨.added, text.chars, none, some next⟩
  | .unended => metaLine noNewline

/-- The lines of each side are numbered from the start of the hunk on that side. -/
def shownHunk (h : Hunk) : List DiffLine :=
  ⟨.hunk, h.header, none, none⟩ :: h.body.mapIdx fun i line =>
    shownBody (h.oldStart + (h.body.take i).countP BodyLine.onOld)
      (h.newStart + (h.body.take i).countP BodyLine.onNew) line

def shownPatch (p : Patch) : List DiffLine := p.names.map metaLine ++ p.hunks.flatMap shownHunk

def shownFile (f : FileDiff) : List DiffLine :=
  f.headers.map (fun h => metaLine h.text.chars) ++ (f.patch.map shownPatch).getD []

/-- The lines of a diff, as its hunk headers number them. -/
def prescribed (d : List FileDiff) : List DiffLine := d.flatMap shownFile

theorem length_shownHunk (h : Hunk) : (shownHunk h).length = h.raws.length := by
  simp [shownHunk, Hunk.raws]

theorem length_shownFile (f : FileDiff) : (shownFile f).length = f.raws.length := by
  have hhunks : ∀ hunks : List Hunk,
      (hunks.flatMap shownHunk).length = (hunks.flatMap Hunk.raws).length := by
    intro hunks
    rw [List.length_flatMap, List.length_flatMap]
    exact congrArg List.sum (List.map_congr_left fun h _ => length_shownHunk h)
  cases hp : f.patch with
  | none => simp [shownFile, FileDiff.raws, hp]
  | some p => simp [shownFile, FileDiff.raws, hp, shownPatch, Patch.raws, hhunks]

theorem length_prescribed (d : List FileDiff) : (prescribed d).length = (raws d).length := by
  rw [prescribed, raws, List.length_flatMap, List.length_flatMap]
  exact congrArg List.sum (List.map_congr_left fun f _ => length_shownFile f)

/-! ### One file -/

variable {s : DiffState}

/-- A line of a hunk has the numbers that are carried, and moves them by one where it is. -/
theorem parseLine_body (old next : ℕ) {line : BodyLine} (h : line ≠ .bare) :
    parseLine ⟨old, next, true⟩ line.raw =
      (⟨old + (if line.onOld then 1 else 0), next + (if line.onNew then 1 else 0), true⟩,
        some (shownBody old next line)) := by
  cases line with
  | context text =>
    have hnone : hunkStarts (' ' :: text.chars) = none := hunkStarts_none (by simp)
    simp [parseLine, BodyLine.raw, hnone, shownBody, BodyLine.onOld, BodyLine.onNew]
  | bare => exact absurd rfl h
  | removed text =>
    have hnone : hunkStarts ('-' :: text.chars) = none := hunkStarts_none (by simp)
    simp [parseLine, BodyLine.raw, hnone, shownBody, BodyLine.onOld, BodyLine.onNew]
  | added text =>
    have hnone : hunkStarts ('+' :: text.chars) = none := hunkStarts_none (by simp)
    simp [parseLine, BodyLine.raw, hnone, shownBody, BodyLine.onOld, BodyLine.onNew]
  | unended =>
    have hhead : noNewline.head? = some '\\' := by decide
    have hne : noNewline ≠ [] := by decide
    have hnone : hunkStarts noNewline = none := hunkStarts_none (by simp [hhead])
    simp [parseLine, BodyLine.raw, hnone, hhead, hne, shownBody, metaLine, BodyLine.onOld,
      BodyLine.onNew]

theorem shownFrom_body : ∀ (body : List BodyLine) (old next : ℕ), .bare ∉ body →
    shownFrom ⟨old, next, true⟩ (body.map BodyLine.raw) = body.mapIdx fun i line =>
      shownBody (old + (body.take i).countP BodyLine.onOld)
        (next + (body.take i).countP BodyLine.onNew) line
  | [], _, _, _ => rfl
  | line :: body, old, next, h => by
    rw [List.mem_cons, not_or] at h
    rw [List.map_cons, shownFrom, parseLine_body _ _ (Ne.symm h.1), Option.toList_some,
      List.singleton_append, shownFrom_body body _ _ h.2, List.mapIdx_cons]
    congr 1
    refine congrArg (fun f => body.mapIdx f) ?_
    funext i l
    rw [List.take_succ_cons, List.countP_cons, List.countP_cons, Nat.add_assoc, Nat.add_assoc,
      Nat.add_comm (if line.onOld then 1 else 0), Nat.add_comm (if line.onNew then 1 else 0)]

theorem stateAfter_inHunk (h : s.inHunk = true) : ∀ raws, (stateAfter s raws).inHunk = true := by
  have hline : ∀ {s : DiffState} (raw), s.inHunk = true → (parseLine s raw).1.inHunk = true := by
    intro s raw hs
    unfold parseLine
    split
    · rfl
    · split_ifs <;> exact hs
  intro raws
  induction raws generalizing s with
  | nil => exact h
  | cons raw raws ih => exact ih (hline raw h)

/-- A hunk is shown as its header says, wherever it stands. -/
theorem shownFrom_hunk (h : Hunk) (hbare : .bare ∉ h.body) : shownFrom s h.raws = shownHunk h := by
  have hheader : parseLine s h.header =
      (⟨h.oldStart, h.newStart, true⟩, some ⟨.hunk, h.header, none, none⟩) := by
    rw [parseLine, hunkStarts_header]
  rw [Hunk.raws, shownFrom, hheader, Option.toList_some, List.singleton_append,
    shownFrom_body _ _ _ hbare]
  rfl

theorem stateAfter_hunk (h : Hunk) : (stateAfter s h.raws).inHunk = true := by
  have hheader : (parseLine s h.header).1 = ⟨h.oldStart, h.newStart, true⟩ := by
    rw [parseLine, hunkStarts_header]
  rw [Hunk.raws, stateAfter, List.foldl_cons, hheader]
  exact stateAfter_inHunk rfl _

theorem shownFrom_hunks {hunks : List Hunk} (hbare : ∀ h ∈ hunks, .bare ∉ h.body) :
    ∀ {s : DiffState}, shownFrom s (hunks.flatMap Hunk.raws) = hunks.flatMap shownHunk := by
  induction hunks with
  | nil => exact rfl
  | cons h hunks ih =>
    intro s
    rw [List.flatMap_cons, List.flatMap_cons, shownFrom_append,
      shownFrom_hunk h (hbare h List.mem_cons_self),
      ih fun h' hh' => hbare h' (List.mem_cons_of_mem h hh')]

/-- Outside of the hunks a line is shown as it is. -/
theorem parseLine_meta {c : Char} {rest : List Char} (hat : c ≠ '@')
    (h : s.inHunk = true → c ≠ '+' ∧ c ≠ '-' ∧ c ≠ ' ') :
    parseLine s (c :: rest) = (s, some (metaLine (c :: rest))) := by
  have hnone : hunkStarts (c :: rest) = none := hunkStarts_none (by simpa using hat)
  unfold parseLine
  rw [hnone]
  dsimp only
  cases hs : s.inHunk with
  | false => simp [metaLine]
  | true => simp [metaLine, h hs]

theorem shownFrom_headers : ∀ (headers : List Header) (more : List (List Char)),
    shownFrom s (headers.map (·.text.chars) ++ more) =
      headers.map (fun h => metaLine h.text.chars) ++ shownFrom s more
  | [], _ => rfl
  | h :: headers, more => by
    obtain ⟨c, rest, htext, hc⟩ := h.word
    simp only [List.mem_cons, List.not_mem_nil, or_false, not_or] at hc
    have hline := @parseLine_meta s c rest hc.2.2.2 fun _ => ⟨hc.1, hc.2.1, hc.2.2.1⟩
    rw [List.map_cons, List.cons_append, shownFrom, htext, hline, shownFrom_headers headers,
      List.map_cons, htext]
    rfl

theorem stateAfter_headers : ∀ headers : List Header,
    stateAfter s (headers.map (·.text.chars)) = s
  | [] => rfl
  | h :: headers => by
    obtain ⟨c, rest, htext, hc⟩ := h.word
    simp only [List.mem_cons, List.not_mem_nil, or_false, not_or] at hc
    have hline := @parseLine_meta s c rest hc.2.2.2 fun _ => ⟨hc.1, hc.2.1, hc.2.2.1⟩
    rw [List.map_cons, stateAfter, List.foldl_cons, htext, hline]
    exact stateAfter_headers headers

/-- The names of a file are shown as such only where no hunk stands before them. -/
theorem shownFrom_patch (p : Patch) (hbare : ∀ h ∈ p.hunks, .bare ∉ h.body) :
    shownFrom s p.raws = shownPatch p ↔ s.inHunk = false := by
  have hnames : p.names =
      ['-' :: ("-- ".toList ++ p.oldName.chars), '+' :: ("++ ".toList ++ p.newName.chars)] := rfl
  cases hs : s.inHunk with
  | true =>
    have hnone : hunkStarts ('-' :: ("-- ".toList ++ p.oldName.chars)) = none :=
      hunkStarts_none (by simp)
    refine iff_of_false (fun heq => ?_) (by decide)
    rw [Patch.raws, hnames, shownPatch, hnames, List.cons_append, shownFrom, List.map_cons,
      List.cons_append, parseLine, hnone] at heq
    simp [hs, metaLine] at heq
  | false =>
    refine iff_of_true ?_ rfl
    have hout : ∀ {c : Char}, s.inHunk = true → c ≠ '+' ∧ c ≠ '-' ∧ c ≠ ' ' := by
      intro c h
      rw [hs] at h
      cases h
    rw [Patch.raws, hnames, shownPatch, hnames, List.cons_append, List.cons_append, List.nil_append,
      shownFrom, parseLine_meta (by decide) hout, shownFrom, parseLine_meta (by decide) hout,
      shownFrom_hunks hbare]
    rfl

/-- A file is shown as prescribed where no hunk of another stands before its own. -/
theorem shownFrom_file (f : FileDiff) (hfull : ∀ raw ∈ f.raws, raw ≠ []) :
    (shownFrom s f.raws = shownFile f ↔ (s.inHunk = true → f.patch = none)) ∧
      (stateAfter s f.raws).inHunk = (s.inHunk || f.patch.isSome) := by
  unfold FileDiff.raws shownFile at *
  rw [shownFrom_headers, List.append_cancel_left_eq, stateAfter_append, stateAfter_headers]
  cases hp : f.patch with
  | none => simp [shownFrom, stateAfter]
  | some p =>
    have hbare : ∀ h ∈ p.hunks, .bare ∉ h.body := by
      intro h hh hmem
      refine hfull [] ?_ rfl
      rw [hp, Option.map_some, Option.getD_some, Patch.raws]
      refine List.mem_append_right _ (List.mem_append_right _ (List.mem_flatMap.2 ⟨h, hh, ?_⟩))
      exact List.mem_cons_of_mem _ (List.mem_map.2 ⟨_, hmem, rfl⟩)
    constructor
    · rw [Option.map_some, Option.getD_some, Option.map_some, Option.getD_some,
        shownFrom_patch p hbare]
      simp
    · rw [Option.map_some, Option.getD_some, Patch.raws, stateAfter_append, Patch.hunks,
        List.flatMap_cons, stateAfter_append, stateAfter_inHunk (stateAfter_hunk p.first)]
      simp

/-! ### The two columns -/

/-- The columns have the lines of their sides in order, and the headings between them. -/
structure KeepsSides (lines : List DiffLine) (rows : List DiffRow) : Prop where
  left : rows.filterMap (fun row => row.heading.or row.left) = lines.filter (·.kind ≠ .added)
  right : rows.filterMap (fun row => row.heading.or row.right) = lines.filter (·.kind ≠ .removed)
  headings : ∀ row ∈ rows, ∀ line ∈ row.heading,
    row.left = none ∧ row.right = none ∧ (line.kind = .hunk ∨ line.kind = .metadata)
  contexts : ∀ row ∈ rows, ∀ line, line.kind = .context →
    (row.left = some line ↔ row.right = some line)
  changes : ∀ row ∈ rows, (∀ line ∈ row.left, line.kind = .context ∨ line.kind = .removed) ∧
    ∀ line ∈ row.right, line.kind = .context ∨ line.kind = .added

theorem filterMap_getElem? (l : List DiffLine) {n : ℕ} (h : l.length ≤ n) :
    (List.range n).filterMap (l[·]?) = l := by
  induction n generalizing l with
  | zero =>
    rw [List.eq_nil_of_length_eq_zero (Nat.le_zero.1 h)]
    rfl
  | succ n ih =>
    cases l with
    | nil => simp
    | cons a l =>
      have hl : (List.range n).filterMap (l[·]?) = l := ih l (by simpa using h)
      rw [List.range_succ_eq_map, List.filterMap_cons, List.filterMap_map]
      simpa using hl

theorem pairRows_left (removed added : List DiffLine) :
    (pairRows removed added).filterMap (fun row => row.heading.or row.left) = removed := by
  rw [pairRows, List.filterMap_map]
  exact filterMap_getElem? removed (Nat.le_max_left _ _)

theorem pairRows_right (removed added : List DiffLine) :
    (pairRows removed added).filterMap (fun row => row.heading.or row.right) = added := by
  rw [pairRows, List.filterMap_map]
  exact filterMap_getElem? added (Nat.le_max_right _ _)

/-- What a row of a change is. -/
theorem mem_pairRows {removed added : List DiffLine} {row : DiffRow}
    (h : row ∈ pairRows removed added) :
    row.heading = none ∧ (∀ line ∈ row.left, line ∈ removed) ∧ ∀ line ∈ row.right, line ∈ added := by
  obtain ⟨j, -, rfl⟩ := List.mem_map.1 h
  exact ⟨rfl, fun line hl => List.mem_of_getElem? hl, fun line hl => List.mem_of_getElem? hl⟩

theorem splitLoop_left : ∀ lines removed added : List DiffLine,
    (splitLoop lines removed added).filterMap (fun row => row.heading.or row.left) =
      removed ++ lines.filter (·.kind ≠ .added)
  | [], removed, added => by simp [splitLoop, pairRows_left]
  | line :: lines, removed, added => by
    rw [splitLoop]
    split_ifs with hremoved hadded hcontext
    · rw [splitLoop_left lines]
      simp [hremoved]
    · rw [splitLoop_left lines]
      simp [hadded]
    all_goals
      rw [List.filterMap_append, pairRows_left, List.filterMap_cons, splitLoop_left lines]
      simp [hadded]

theorem splitLoop_right : ∀ lines removed added : List DiffLine,
    (splitLoop lines removed added).filterMap (fun row => row.heading.or row.right) =
      added ++ lines.filter (·.kind ≠ .removed)
  | [], removed, added => by simp [splitLoop, pairRows_right]
  | line :: lines, removed, added => by
    rw [splitLoop]
    split_ifs with hremoved hadded hcontext
    · rw [splitLoop_right lines]
      simp [hremoved]
    · rw [splitLoop_right lines]
      simp [hadded]
    all_goals
      rw [List.filterMap_append, pairRows_right, List.filterMap_cons, splitLoop_right lines]
      simp [hremoved]

/-- What a row is: one of a change, a context line on both sides, or a heading. -/
theorem mem_splitLoop {row : DiffRow} : ∀ {lines removed added : List DiffLine},
    (∀ line ∈ removed, line.kind = .removed) → (∀ line ∈ added, line.kind = .added) →
    row ∈ splitLoop lines removed added →
      (row.heading = none ∧ (∀ line ∈ row.left, line.kind = .removed) ∧
          ∀ line ∈ row.right, line.kind = .added) ∨
        (∃ line, line.kind = .context ∧ row = { left := some line, right := some line }) ∨
          ∃ line, (line.kind = .hunk ∨ line.kind = .metadata) ∧ row = { heading := some line }
  | [], removed, added, hr, ha, h => by
    obtain ⟨hnone, hleft, hright⟩ := mem_pairRows h
    exact .inl ⟨hnone, fun line hl => hr line (hleft line hl), fun line hl => ha line (hright line hl)⟩
  | line :: lines, removed, added, hr, ha, h => by
    rw [splitLoop] at h
    split_ifs at h with hremoved hadded hcontext
    · refine mem_splitLoop (fun l hl => ?_) ha h
      rcases List.mem_append.1 hl with hl | hl
      · exact hr l hl
      · rwa [List.mem_singleton.1 hl]
    · refine mem_splitLoop hr (fun l hl => ?_) h
      rcases List.mem_append.1 hl with hl | hl
      · exact ha l hl
      · rwa [List.mem_singleton.1 hl]
    · rcases List.mem_append.1 h with h | h
      · obtain ⟨hnone, hleft, hright⟩ := mem_pairRows h
        exact .inl ⟨hnone, fun line hl => hr line (hleft line hl),
          fun line hl => ha line (hright line hl)⟩
      · rcases List.mem_cons.1 h with rfl | h
        · exact .inr (.inl ⟨line, hcontext, rfl⟩)
        · exact mem_splitLoop (by simp) (by simp) h
    · rcases List.mem_append.1 h with h | h
      · obtain ⟨hnone, hleft, hright⟩ := mem_pairRows h
        exact .inl ⟨hnone, fun line hl => hr line (hleft line hl),
          fun line hl => ha line (hright line hl)⟩
      · rcases List.mem_cons.1 h with rfl | h
        · refine .inr (.inr ⟨line, ?_, rfl⟩)
          cases hk : line.kind <;> simp_all
        · exact mem_splitLoop (by simp) (by simp) h

/-- No line is lost in the columns, and none is there twice. -/
theorem splitDiff_keeps (lines : List DiffLine) : KeepsSides lines (splitDiff lines) := by
  have hrows : ∀ row ∈ splitDiff lines, _ := fun row h =>
    mem_splitLoop (by simp) (by simp) h
  refine ⟨splitLoop_left lines [] [], splitLoop_right lines [] [], ?_, ?_, ?_⟩
  · intro row hrow line hline
    rcases hrows row hrow with ⟨hnone, -⟩ | ⟨l, -, rfl⟩ | ⟨l, hl, rfl⟩
    · simp [hnone] at hline
    · simp at hline
    · obtain rfl : l = line := by simpa using hline
      exact ⟨rfl, rfl, hl⟩
  · intro row hrow line hline
    rcases hrows row hrow with ⟨-, hleft, hright⟩ | ⟨l, -, rfl⟩ | ⟨l, -, rfl⟩
    · refine iff_of_false (fun h => ?_) fun h => ?_
      · exact absurd (hleft line h) (by simp [hline])
      · exact absurd (hright line h) (by simp [hline])
    · rfl
    · rfl
  · intro row hrow
    rcases hrows row hrow with ⟨-, hleft, hright⟩ | ⟨l, hl, rfl⟩ | ⟨l, -, rfl⟩
    · exact ⟨fun line h => .inr (hleft line h), fun line h => .inr (hright line h)⟩
    · refine ⟨fun line h => .inl ?_, fun line h => .inl ?_⟩
      · obtain rfl : l = line := by simpa using h
        exact hl
      · obtain rfl : l = line := by simpa using h
        exact hl
    · simp

/-! ### A whole diff -/

/-- No line of a hunk is written without its blank. -/
def Blanked (d : List FileDiff) : Prop :=
  ∀ f ∈ d, ∀ p ∈ f.patch, ∀ h ∈ p.hunks, .bare ∉ h.body

/-- Not more than one file has hunks. -/
def OnePatch (d : List FileDiff) : Prop := d.Pairwise fun f g => f.patch = none ∨ g.patch = none

/-- What is shown of a diff is what its hunk headers prescribe, in one column and in two. -/
def Faithful (limit : Option ℕ) (d : List FileDiff) : Prop :=
  (parseDiff (text d) limit).1 = prescribed d ∧
    KeepsSides (parseDiff (text d) limit).1 (splitDiff (parseDiff (text d) limit).1)

theorem raw_body_nil {line : BodyLine} : line.raw = [] ↔ line = .bare := by
  have hne : noNewline ≠ [] := by decide
  cases line <;> simp [BodyLine.raw, hne]

/-- Only a line without its blank is empty. -/
theorem blanked_iff (d : List FileDiff) : Blanked d ↔ ∀ raw ∈ raws d, raw ≠ [] := by
  constructor
  · rintro h raw hraw rfl
    obtain ⟨f, hf, hraw⟩ := List.mem_flatMap.1 hraw
    rcases List.mem_append.1 hraw with hraw | hraw
    · obtain ⟨header, -, hnil⟩ := List.mem_map.1 hraw
      obtain ⟨c, rest, htext, -⟩ := header.word
      simp [htext] at hnil
    · cases hp : f.patch with
      | none => simp [hp] at hraw
      | some p =>
        rw [hp, Option.map_some, Option.getD_some, Patch.raws, List.mem_append] at hraw
        rcases hraw with hraw | hraw
        · simp [Patch.names] at hraw
        · obtain ⟨hunk, hhunk, hraw⟩ := List.mem_flatMap.1 hraw
          rcases List.mem_cons.1 hraw with hnil | hraw
          · simp [Hunk.header] at hnil
          · obtain ⟨line, hline, hnil⟩ := List.mem_map.1 hraw
            rw [raw_body_nil] at hnil
            exact h f hf p hp hunk hhunk (hnil ▸ hline)
  · intro h f hf p hp hunk hhunk hbare
    refine h [] (List.mem_flatMap.2 ⟨f, hf, List.mem_append_right _ ?_⟩) rfl
    rw [hp, Option.map_some, Option.getD_some]
    refine List.mem_append_right _ (List.mem_flatMap.2 ⟨hunk, hhunk, List.mem_cons_of_mem _ ?_⟩)
    exact List.mem_map.2 ⟨_, hbare, rfl⟩

theorem shownFrom_diff : ∀ (d : List FileDiff) (s : DiffState), (∀ raw ∈ raws d, raw ≠ []) →
    (shownFrom s (raws d) = prescribed d ↔
      (s.inHunk = true → ∀ f ∈ d, f.patch = none) ∧ OnePatch d)
  | [], s, _ => by simp [raws, shownFrom, prescribed, OnePatch]
  | f :: d, s, hfull => by
    have hf : ∀ raw ∈ f.raws, raw ≠ [] := fun raw h => hfull raw (List.mem_append_left _ h)
    have hd : ∀ raw ∈ raws d, raw ≠ [] := fun raw h => hfull raw (List.mem_append_right _ h)
    obtain ⟨hfile, hstate⟩ := @shownFrom_file s f hf
    have ih := shownFrom_diff d (stateAfter s f.raws) hd
    have hlength : (shownFrom s f.raws).length = (shownFile f).length := by
      rw [length_shownFrom, length_shownFile, List.countP_eq_length.2]
      intro raw h
      simpa using hf raw h
    have hsplit : shownFrom s (raws (f :: d)) = prescribed (f :: d) ↔
        shownFrom s f.raws = shownFile f ∧
          shownFrom (stateAfter s f.raws) (raws d) = prescribed d := by
      have happ : shownFrom s (raws (f :: d)) =
          shownFrom s f.raws ++ shownFrom (stateAfter s f.raws) (raws d) := shownFrom_append _ _ _
      have hpre : prescribed (f :: d) = shownFile f ++ prescribed d := rfl
      rw [happ, hpre]
      exact ⟨fun h => List.append_inj h hlength, fun ⟨h, h'⟩ => by rw [h, h']⟩
    rw [hsplit, hfile, ih, hstate, OnePatch, OnePatch, List.pairwise_cons]
    cases hs : s.inHunk <;> cases hp : f.patch <;> simp [hp]

/-- A diff is shown as prescribed if and only if not more than one of its files has hunks, and no
empty line of these is written without its blank. -/
theorem faithful_iff (limit : Option ℕ) (d : List FileDiff)
    (hlimit : ∀ n, limit = some n → (raws d).length ≤ n) :
    Faithful limit d ↔ Blanked d ∧ OnePatch d := by
  have hlines : (parseDiff (text d) limit).1 = shownFrom {} (raws d) := by
    rw [parseDiff, splitOn_text, parseLoop_lines]
    · rfl
    · simpa using hlimit
  unfold Faithful
  rw [hlines, and_iff_left (splitDiff_keeps _)]
  by_cases hfull : ∀ raw ∈ raws d, raw ≠ []
  · rw [shownFrom_diff d {} hfull, and_iff_right ((blanked_iff d).2 hfull)]
    simp
  · refine iff_of_false (fun heq => hfull ?_) fun h => hfull ((blanked_iff d).1 h.1)
    have hlength := congrArg List.length heq
    rw [length_shownFrom, length_prescribed, List.countP_eq_length] at hlength
    intro raw hraw
    simpa using hlength raw hraw

/-- The first header of a file. -/
def gitHeader : Header := ⟨⟨"diff --git a/x b/x".toList, by decide⟩, 'd', _, rfl, by decide⟩

/-- A file that became a link: the file is taken away and the link is added. -/
def typeChange : List FileDiff :=
  [{ headers := [gitHeader,
      ⟨⟨"deleted file mode 100644".toList, by decide⟩, 'd', _, rfl, by decide⟩,
      ⟨⟨"index f3a3485..0000000".toList, by decide⟩, 'i', _, rfl, by decide⟩]
     patch := some
       { oldName := ⟨"a/x".toList, by decide⟩
         newName := ⟨"/dev/null".toList, by decide⟩
         first :=
           { oldStart := 1, oldCount := 1, newStart := 0, newCount := 0, heading := ⟨[], by decide⟩
             body := [.removed ⟨"text".toList, by decide⟩], old_count := rfl, new_count := rfl }
         more := [] } },
    { headers := [gitHeader,
        ⟨⟨"new file mode 120000".toList, by decide⟩, 'n', _, rfl, by decide⟩,
        ⟨⟨"index 0000000..1de5659".toList, by decide⟩, 'i', _, rfl, by decide⟩]
      patch := some
        { oldName := ⟨"/dev/null".toList, by decide⟩
          newName := ⟨"b/x".toList, by decide⟩
          first :=
            { oldStart := 0, oldCount := 0, newStart := 1, newCount := 1, heading := ⟨[], by decide⟩
              body := [.added ⟨"target".toList, by decide⟩, .unended], old_count := rfl
              new_count := rfl }
          more := [] } }]

theorem faithful_iff_taken : Faithful (some 4000) (typeChange.take 1) ↔
    Blanked (typeChange.take 1) ∧ OnePatch (typeChange.take 1) :=
  faithful_iff (some 4000) (typeChange.take 1) fun n hn => by
    rw [← Option.some.inj hn]
    decide

/-- The name of the link's old side is shown as a line that is removed. -/
theorem not_faithful_typeChange :
    ⟨.removed, "-- /dev/null".toList, some 2, none⟩ ∈ (parseDiff (text typeChange) (some 4000)).1 ∧
      ¬Faithful (some 4000) typeChange := by
  refine ⟨by decide +kernel, fun h => ?_⟩
  have hdiffer : (parseDiff (text typeChange) (some 4000)).1 ≠ prescribed typeChange := by
    decide +kernel
  exact hdiffer h.1

end GitDiff

end LatteWork
