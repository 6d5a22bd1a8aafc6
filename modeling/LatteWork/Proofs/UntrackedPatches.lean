import LatteWork.Git.Review
import LatteWork.Lib.Patch

/-!
# Patches of files that are not tracked

The patch that is written for a file that Git does not track makes the file of an empty one, but
for the ends of its lines: a line that ends in `\r\n` is written without the `\r`.
-/

namespace LatteWork

namespace Git

open Patch (unquoteBody escape octal)

theorem lossyLoop_skip (l rest : List UInt8) :
    lossyLoop l.length (l ++ rest) = fromUtf8Lossy rest := by
  induction l with
  | nil => rfl
  | cons b l ih => simpa [lossyLoop] using ih

/-- A text is read back from its bytes. -/
theorem fromUtf8Lossy_asBytes : ∀ text : List Char, fromUtf8Lossy (asBytes text) = text
  | [] => rfl
  | c :: text => by
    have hsize := String.length_utf8EncodeChar c
    have hdecode : (asBytes (c :: text)).toByteArray.utf8DecodeChar? 0 = some c := by
      rw [asBytes_cons, List.toByteArray_append, ByteArray.utf8DecodeChar?_utf8EncodeChar_append]
    rw [asBytes_cons] at hdecode ⊢
    rcases hbytes : String.utf8EncodeChar c with _ | ⟨b, tail⟩
    · exact absurd hbytes String.utf8EncodeChar_ne_nil
    · rw [hbytes] at hsize hdecode
      rw [List.cons_append] at hdecode ⊢
      unfold fromUtf8Lossy lossyLoop
      rw [hdecode]
      have htail : c.utf8Size - 1 = tail.length := by
        rw [← hsize]
        rfl
      dsimp only
      rw [htail, lossyLoop_skip, fromUtf8Lossy_asBytes text]

theorem asBytes_injective : Function.Injective asBytes :=
  Function.LeftInverse.injective fromUtf8Lossy_asBytes

/-- A byte below 128 is a character. -/
theorem mem_utf8EncodeChar {c : Char} {b : UInt8} (h : b ∈ String.utf8EncodeChar c)
    (hb : b.toNat < 128) : c.toNat = b.toNat := by
  unfold String.utf8EncodeChar at h
  dsimp only at h
  split_ifs at h
  · obtain rfl := List.mem_singleton.1 h
    simp only [UInt8.toNat_ofNat'] at hb ⊢
    change c.val.toNat = _
    omega
  all_goals
    simp only [List.mem_cons, List.not_mem_nil, or_false] at h
    rcases h with rfl | rfl | rfl | rfl <;> simp only [UInt8.toNat_ofNat'] at hb <;> omega

theorem mem_asBytes {text : List Char} {d : Char} {b : UInt8} (h : b ∈ asBytes text)
    (hb : b.toNat < 128) (hd : d.toNat = b.toNat) : d ∈ text := by
  obtain ⟨c, hc, hmem⟩ := List.mem_flatMap.1 h
  have heq : c.toNat = d.toNat := (mem_utf8EncodeChar hmem hb).trans hd.symm
  rwa [← Char.ofNat_toNat d, ← heq, Char.ofNat_toNat]

section Quoting

theorem utf8EncodeChar_ofNat {n : ℕ} (h : n < 128) :
    String.utf8EncodeChar (Char.ofNat n) = [UInt8.ofNat n] := by
  have hn : (Char.ofNat n).toNat = n := by
    rw [Char.ofNat, dif_pos (.inl (by omega))]
    exact BitVec.toNat_ofNatLT _ _
  rw [encode_ascii (by omega), hn]

theorem unquoteBody_plain {c : Char} (hquote : c ≠ '"') (hslash : c ≠ '\\') (rest : List Char) :
    unquoteBody (c :: rest) = (unquoteBody rest).map (String.utf8EncodeChar c ++ ·) := by
  rw [unquoteBody]
  · exact hquote
  · intro d rest h
    exact absurd h hslash

theorem octal_digits : ∀ {d : ℕ}, d < 8 → escape (Nat.digitChar d) = none ∧
    '0' ≤ Nat.digitChar d ∧ Nat.digitChar d ≤ '7' ∧ (Nat.digitChar d).toNat = 48 + d
  | 0, _ | 1, _ | 2, _ | 3, _ | 4, _ | 5, _ | 6, _ | 7, _ => by decide
  | _ + 8, h => absurd h (by omega)

theorem octal_quote {n : ℕ} (h : n < 256) :
    octal (Nat.digitChar (n / 64)) (Nat.digitChar (n / 8 % 8)) (Nat.digitChar (n % 8)) =
      some (UInt8.ofNat n) := by
  obtain ⟨-, hlow, -, hfirst⟩ := @octal_digits (n / 64) (by omega)
  obtain ⟨-, hlow₁, hhigh₁, hsecond⟩ := @octal_digits (n / 8 % 8) (by omega)
  obtain ⟨-, hlow₂, hhigh₂, hthird⟩ := @octal_digits (n % 8) (by omega)
  have hthree : Nat.digitChar (n / 64) ≤ '3' := by
    rw [Char.le_def, UInt32.le_iff_toNat_le]
    change (Nat.digitChar (n / 64)).toNat ≤ 51
    omega
  rw [octal, if_pos ⟨hlow, hthree, hlow₁, hhigh₁, hlow₂, hhigh₂⟩, hfirst, hsecond, hthird]
  congr 2
  omega

theorem unquoteBody_quoteByte (b : UInt8) (rest : List Char) :
    unquoteBody (quoteByte b ++ rest) = (unquoteBody rest).map (b :: ·) := by
  have hlt := b.toNat_lt
  unfold quoteByte
  split_ifs with hslash hplain
  · rcases hslash with rfl | rfl <;> rfl
  · have hhigh : b.toNat ≤ 126 := UInt8.le_iff_toNat_le.1 hplain.2
    have hencode : String.utf8EncodeChar (Char.ofNat b.toNat) = [b] := by
      rw [utf8EncodeChar_ofNat (by omega), UInt8.ofNat_toNat]
    have hne : ∀ c : Char, ∀ d : UInt8, String.utf8EncodeChar c = [d] → b ≠ d →
        Char.ofNat b.toNat ≠ c := by
      rintro c d hc hd rfl
      exact hd (List.cons.inj (hencode.symm.trans hc)).1
    obtain ⟨hquote, hback⟩ := not_or.1 hslash
    rw [List.cons_append, List.nil_append, unquoteBody_plain (hne '"' 34 rfl hquote)
      (hne '\\' 92 rfl hback), hencode]
    rfl
  · obtain ⟨hescape, -⟩ := @octal_digits (b.toNat / 64) (by omega)
    simp only [List.cons_append, List.nil_append]
    rw [unquoteBody, hescape]
    dsimp only
    rw [octal_quote (by omega), UInt8.ofNat_toNat]

theorem unquoteBody_quote : ∀ bytes : List UInt8,
    unquoteBody (bytes.flatMap quoteByte ++ ['"']) = some bytes
  | [] => rfl
  | b :: bytes => by
    rw [List.flatMap_cons, List.append_assoc, unquoteBody_quoteByte, unquoteBody_quote bytes]
    rfl

/-- A path is read back from its quotes. -/
theorem unquote_quotePath (path : List Char) :
    Patch.unquote (quotePath path) = some (asBytes path) :=
  unquoteBody_quote (asBytes path)

theorem newline_not_mem_quoteByte (b : UInt8) : '\n' ∉ quoteByte b := by
  have hplain : 32 ≤ b.toNat → b.toNat ≤ 126 → Char.ofNat b.toNat ≠ '\n' := by
    intro hlow hhigh h
    have hencode := @utf8EncodeChar_ofNat b.toNat (by omega)
    rw [h, UInt8.ofNat_toNat] at hencode
    obtain rfl := (List.cons.inj hencode).1
    exact absurd hlow (by decide)
  unfold quoteByte
  split_ifs with hslash hrange
  · rcases hslash with rfl | rfl <;> decide
  · simpa using (hplain (UInt8.le_iff_toNat_le.1 hrange.1) (UInt8.le_iff_toNat_le.1 hrange.2)).symm
  · simp

theorem newline_not_mem_quotePath (path : List Char) : '\n' ∉ quotePath path := by
  have hbytes : '\n' ∉ (asBytes path).flatMap quoteByte := by
    intro h
    obtain ⟨b, -, hb⟩ := List.mem_flatMap.1 h
    exact newline_not_mem_quoteByte b hb
  simpa [quotePath] using hbytes

end Quoting

section Lines

variable {bodies : List (List Char)} {q : List Char}

/-- A line without the `\r` that it ends with. -/
def chomp (body : List Char) : List Char :=
  if body.getLast? = some '\r' then body.dropLast else body

theorem chomp_free {body : List Char} (h : '\n' ∉ body) : '\n' ∉ chomp body := by
  unfold chomp
  split_ifs
  · exact fun hmem => h (List.mem_of_mem_dropLast hmem)
  · exact h

theorem chomp_eq_self {body : List Char} : chomp body = body ↔ body.getLast? ≠ some '\r' := by
  unfold chomp
  split_ifs with h
  · have hne : body ≠ [] := by
      rintro rfl
      cases h
    simp only [h, ne_eq, not_true_eq_false, iff_false]
    intro heq
    have hlen := congrArg List.length heq
    have hpos := List.length_pos_of_ne_nil hne
    rw [List.length_dropLast] at hlen
    omega
  · simp [h]

theorem split_join (hbodies : ∀ body ∈ bodies, '\n' ∉ body) (hq : '\n' ∉ q) :
    Lines.split (fun c => c = '\n') (Fields.join '\n' bodies ++ q) =
      bodies.map (· ++ ['\n']) ++ if q.isEmpty then [] else [q] := by
  have hfree : ∀ l : List Char, '\n' ∉ l → ∀ c ∈ l, decide (c = '\n') = false := by
    intro l hl c hc
    rw [decide_eq_false_iff_not]
    rintro rfl
    exact hl hc
  have hwhole : ∀ line ∈ bodies.map (· ++ ['\n']), Lines.Whole (fun c => c = '\n') line := by
    intro line hline
    obtain ⟨body, hbody, rfl⟩ := List.mem_map.1 hline
    exact ⟨body, '\n', rfl, rfl, hfree body (hbodies body hbody)⟩
  have hcut := @Lines.cut_flatten _ (fun c => decide (c = '\n')) q _ hwhole
  rw [Lines.cut_free (hfree q hq), List.append_nil] at hcut
  rw [Fields.join, List.flatMap_def, Lines.split, Lines.complete, Lines.tail, hcut]

theorem lineOf_whole (body : List Char) : lineOf (body ++ ['\n']) = chomp body := by
  rw [lineOf, if_pos (by simp), List.dropLast_concat]
  rfl

theorem lineOf_rest (hq : '\n' ∉ q) : lineOf q = q := by
  rw [lineOf, if_neg]
  intro h
  exact hq (List.mem_of_getLast? h)

/-- What `str::lines` gives of a text. -/
theorem textLines_join (hbodies : ∀ body ∈ bodies, '\n' ∉ body) (hq : '\n' ∉ q) :
    textLines (Fields.join '\n' bodies ++ q) =
      bodies.map chomp ++ if q.isEmpty then [] else [q] := by
  rw [textLines, split_join hbodies hq, List.map_append, List.map_map]
  congr 1
  · exact List.map_congr_left fun body _ => lineOf_whole body
  · split_ifs
    · rfl
    · exact congrArg (· :: []) (lineOf_rest hq)

theorem asBytes_join : ∀ bodies : List (List Char),
    asBytes (Fields.join '\n' bodies) = Fields.join 10 (bodies.map asBytes)
  | [] => rfl
  | body :: bodies => by
    rw [List.map_cons, Fields.join_cons, Fields.join_cons, asBytes_append, asBytes_cons,
      asBytes_join bodies]
    rfl

theorem bytes_free {body : List Char} (h : '\n' ∉ body) : (10 : UInt8) ∉ asBytes body :=
  fun hmem => h (mem_asBytes hmem (by decide) rfl)

theorem asBytes_eq_nil : asBytes q = [] ↔ q = [] :=
  asBytes_injective.eq_iff' rfl

/-- A text has an end when nothing is behind its last line. -/
theorem ended_join (hq : '\n' ∉ q) :
    (asBytes (Fields.join '\n' bodies ++ q)).getLast? = some 10 ∨
      asBytes (Fields.join '\n' bodies ++ q) = [] ↔ q = [] := by
  constructor
  · rintro (h | h)
    · by_contra hne
      rw [asBytes_append, List.getLast?_append_of_ne_nil _ (asBytes_eq_nil.not.2 hne)] at h
      exact bytes_free hq (List.mem_of_getLast? h)
    · exact (List.append_eq_nil_iff.1 (asBytes_eq_nil.1 h)).2
  · rintro rfl
    rcases bodies.eq_nil_or_concat with rfl | ⟨l, f, rfl⟩
    · exact .inr rfl
    · left
      rw [List.append_nil, asBytes_join, List.concat_eq_append, List.map_append,
        Fields.join_append]
      simp [Fields.join]

/-- What the review counts is what `str::lines` gives. -/
theorem addedLines_eq {text : List Char} (hsize : (asBytes text).length < 2 ^ 32) :
    addedLines (asBytes text) = (textLines text).length := by
  obtain ⟨bodies, q, rfl, hbodies, hq⟩ := Fields.exists_join '\n' text
  have hfree : ∀ f ∈ bodies.map asBytes, (10 : UInt8) ∉ f := by
    intro f hf
    obtain ⟨body, hbody, rfl⟩ := List.mem_map.1 hf
    exact bytes_free (hbodies body hbody)
  have hcount := @Fields.length_le_join _ (10 : UInt8) (bodies.map asBytes)
  have hjoin : asBytes (Fields.join '\n' bodies ++ q) =
      Fields.join 10 (bodies.map asBytes) ++ asBytes q := by
    rw [asBytes_append, asBytes_join]
  rw [addedLines, textLines_join hbodies hq]
  simp only [ended_join hq]
  rw [hjoin] at hsize ⊢
  rw [Fields.splitOn_join (bytes_free hq) hfree]
  rw [List.length_map] at hcount
  rw [List.length_append] at hsize
  simp only [List.length_append, List.length_map, List.length_singleton]
  rcases q with _ | ⟨c, q⟩
  · rw [if_pos rfl, Nat.mod_eq_of_lt (by omega)]
    rfl
  · have hpos : 0 < (asBytes (c :: q)).length :=
      List.length_pos_of_ne_nil (asBytes_eq_nil.not.2 (List.cons_ne_nil c q))
    rw [if_neg (List.cons_ne_nil c q), Nat.mod_eq_of_lt (by omega)]
    rfl

/-- A line that ends in `\r` is a `\r\n` of the text. -/
theorem crlf_iff (hbodies : ∀ body ∈ bodies, '\n' ∉ body) (hq : '\n' ∉ q) :
    ['\r', '\n'] <:+: Fields.join '\n' bodies ++ q ↔
      ∃ body ∈ bodies, body.getLast? = some '\r' := by
  constructor
  · rintro ⟨u, v, h⟩
    obtain ⟨us, w, rfl, hus, hw⟩ := Fields.exists_join '\n' u
    obtain ⟨vs, z, rfl, hvs, hz⟩ := Fields.exists_join '\n' v
    have hline : '\n' ∉ w ++ ['\r'] := by simpa using hw
    have hsame : Fields.join '\n' bodies ++ q =
        Fields.join '\n' (us ++ (w ++ ['\r']) :: vs) ++ z := by
      rw [← h, Fields.join_append, Fields.join_cons]
      simp
    have hfree : ∀ f ∈ us ++ (w ++ ['\r']) :: vs, '\n' ∉ f := by
      intro f hf
      rcases List.mem_append.1 hf with hf | hf
      · exact hus f hf
      · rcases List.mem_cons.1 hf with rfl | hf
        · exact hline
        · exact hvs f hf
    obtain ⟨rfl, -⟩ := Fields.join_inj hbodies hq hfree hz hsame
    exact ⟨w ++ ['\r'], by simp, by simp⟩
  · rintro ⟨body, hbody, hlast⟩
    obtain ⟨us, vs, rfl⟩ := List.append_of_mem hbody
    obtain ⟨w, rfl⟩ := List.getLast?_eq_some_iff.1 hlast
    refine ⟨Fields.join '\n' us ++ w, Fields.join '\n' vs ++ q, ?_⟩
    rw [Fields.join_append, Fields.join_cons]
    simp

end Lines

section Reading

theorem after_append (front rest : List Char) : Patch.after front (front ++ rest) = some rest := by
  rw [Patch.after, if_pos (List.prefix_append front rest), List.drop_left]

/-- The header of the hunk says how many lines there are. -/
theorem hunk_read (n : ℕ) :
    Patch.hunk ("@@ -0,0 +1,".toList ++ (Nat.repr n).toList ++ " @@".toList) = some n := by
  have hdigits : ∀ c ∈ Nat.toDigits 10 n, c.isDigit = true :=
    fun c hc => Nat.isDigit_of_mem_toDigits (by omega) le_rfl hc
  have htake : (Nat.toDigits 10 n ++ " @@".toList).takeWhile (·.isDigit) = Nat.toDigits 10 n := by
    rw [List.takeWhile_append_of_pos hdigits]
    exact List.append_nil _
  rw [List.append_assoc, Patch.hunk, after_append, Nat.toList_repr]
  simp only [Option.bind_eq_bind, Option.bind_some, htake, List.drop_left]
  rw [if_pos ⟨Nat.toDigits_ne_nil, trivial⟩, Nat.ofDigitChars_ten_toDigits]

theorem readLines_read (ended : Bool) : ∀ lines : List (List Char),
    Patch.readLines (lines.map ('+' :: ·) ++ (if ended then [] else [Patch.noNewline]) ++ [[]]) =
      some (lines, ended)
  | [] => by cases ended <;> rfl
  | line :: lines => by
    rw [List.map_cons, List.cons_append, List.cons_append, Patch.readLines,
      readLines_read ended lines]
    rfl

theorem textLines_free {text line : List Char} (h : line ∈ textLines text) : '\n' ∉ line := by
  obtain ⟨bodies, q, rfl, hbodies, hq⟩ := Fields.exists_join '\n' text
  rw [textLines_join hbodies hq] at h
  rcases List.mem_append.1 h with h | h
  · obtain ⟨body, hbody, rfl⟩ := List.mem_map.1 h
    exact chomp_free (hbodies body hbody)
  · split_ifs at h
    · cases h
    · obtain rfl := List.mem_singleton.1 h
      exact hq

/-- The lines of a patch. -/
def patchFields (path : List Char) (lines : List (List Char)) (ended : Bool) :
    List (List Char) :=
  "--- /dev/null".toList :: ("+++ ".toList ++ quotePath path) ::
    ("@@ -0,0 +1,".toList ++ (Nat.repr lines.length).toList ++ " @@".toList) ::
    (lines.map ('+' :: ·) ++ if ended then [] else [Patch.noNewline])

theorem patchFields_free {path : List Char} {lines : List (List Char)} {ended : Bool}
    (hlines : ∀ line ∈ lines, '\n' ∉ line) :
    ∀ f ∈ patchFields path lines ended, '\n' ∉ f := by
  intro f hf
  simp only [patchFields, List.mem_cons, List.mem_append, List.mem_map] at hf
  rcases hf with rfl | rfl | rfl | ⟨line, hline, rfl⟩ | hf
  · decide
  · intro h
    exact (List.mem_append.1 h).elim (by decide) (newline_not_mem_quotePath path)
  · intro h
    rw [Nat.toList_repr, List.mem_append, List.mem_append] at h
    rcases h with (h | h) | h
    · exact absurd h (by decide)
    · exact absurd (Nat.isDigit_of_mem_toDigits (by omega) le_rfl h) (by decide)
    · exact absurd h (by decide)
  · simpa using hlines line hline
  · split_ifs at hf
    · cases hf
    · obtain rfl := List.mem_singleton.1 hf
      decide

theorem read_patchFields {path : List Char} {lines : List (List Char)} (ended : Bool)
    (hlines : ∀ line ∈ lines, '\n' ∉ line) :
    Patch.read (Fields.join '\n' (patchFields path lines ended)) =
      some { path := asBytes path, count := lines.length, lines, ended } := by
  have hsplit := @Fields.splitOn_join _ '\n' _ _ [] List.not_mem_nil _
    (@patchFields_free path lines ended hlines)
  rw [List.append_nil] at hsplit
  rw [Patch.read, hsplit]
  simp only [patchFields, List.cons_append]
  rw [after_append, hunk_read, readLines_read]
  simp [unquote_quotePath]

/-- What is written for a file is the lines of its patch. -/
theorem untrackedDiff_eq {path : String} {text : List Char} (hnul : (0 : UInt8) ∉ asBytes text)
    (hlimit : (asBytes text).length ≤ contentLimit) :
    untrackedDiff path (asBytes text) =
      (Fields.join '\n' (patchFields ("b/".toList ++ path.toList) (textLines text)
        ((asBytes text).getLast? = some 10 ∨ asBytes text = [])), false) := by
  have hlines : ∀ lines : List (List Char),
      Fields.join '\n' (lines.map ('+' :: ·)) = lines.flatMap fun line => '+' :: line ++ ['\n'] :=
    fun lines => List.flatMap_map _ _ lines
  rw [untrackedDiff, untrackedContent, List.take_of_length_le hlimit, decide_eq_false (by omega)]
  dsimp only
  rw [if_neg (by simpa using hnul), fromUtf8Lossy_asBytes, patchFields, Fields.join_cons,
    Fields.join_cons, Fields.join_cons, Fields.join_append, hlines]
  have hstart : "--- /dev/null\n+++ ".toList =
    "--- /dev/null".toList ++ '\n' :: "+++ ".toList := by decide
  have hat : "\n@@ -0,0 +1,".toList = '\n' :: "@@ -0,0 +1,".toList := by decide
  have hend : " @@\n".toList = " @@".toList ++ ['\n'] := by decide
  have hlast : "\\ No newline at end of file\n".toList = Patch.noNewline ++ ['\n'] := by decide
  rw [hstart, hat, hend, hlast]
  by_cases hended : (asBytes text).getLast? = some 10 ∨ asBytes text = []
  · rw [if_neg (by tauto), if_pos (by simpa using hended)]
    simp [Fields.join]
  · rw [if_pos (by tauto), if_neg (by simpa using hended)]
    simp [Fields.join]

/-- The patch makes the text, but for the `\r` in front of the ends of its lines. -/
theorem apply_eq_iff (path : List UInt8) (count : ℕ) (text : List Char) :
    Patch.New.apply
      { path, count, lines := textLines text
        ended := (asBytes text).getLast? = some 10 ∨ asBytes text = [] } = text ↔
      ¬['\r', '\n'] <:+: text := by
  obtain ⟨bodies, q, rfl, hbodies, hq⟩ := Fields.exists_join '\n' text
  have happly : Patch.New.apply
      { path, count, lines := textLines (Fields.join '\n' bodies ++ q)
        ended := (asBytes (Fields.join '\n' bodies ++ q)).getLast? = some 10 ∨
          asBytes (Fields.join '\n' bodies ++ q) = [] } =
      Fields.join '\n' (bodies.map chomp) ++ q := by
    simp only [ended_join hq, textLines_join hbodies hq, Patch.New.apply]
    rcases q with _ | ⟨c, q⟩
    · simp
    · have hlines : Fields.join '\n' (bodies.map chomp ++ [c :: q]) =
          Fields.join '\n' (bodies.map chomp) ++ c :: q ++ ['\n'] := by
        simp [Fields.join]
      rw [if_neg (by simp)]
      dsimp only [List.isEmpty_cons]
      rw [if_neg Bool.false_ne_true, hlines, List.dropLast_concat]
  have hchomped : ∀ f ∈ bodies.map chomp, '\n' ∉ f := by
    intro f hf
    obtain ⟨body, hbody, rfl⟩ := List.mem_map.1 hf
    exact chomp_free (hbodies body hbody)
  rw [happly, crlf_iff hbodies hq]
  push Not
  constructor
  · intro heq body hbody
    have hmap := (Fields.join_inj hchomped hq hbodies hq heq).1
    rw [← List.map_id bodies, List.map_map, List.map_inj_left] at hmap
    exact chomp_eq_self.1 (hmap body hbody)
  · intro hnone
    rw [List.map_congr_left fun body hbody => chomp_eq_self.2 (hnone body hbody), List.map_id']

end Reading

section Rows

variable {content : String → Option (List UInt8)}

theorem addFile_tracked {status path : List Char} {previous : Option (List Char)}
    {entries : List GitReviewFile} (h : ∀ e ∈ entries, e.untracked = false) :
    (∀ out, addFile status path previous entries = .error out → ∀ e ∈ out, e.untracked = false) ∧
      ∀ out left, addFile status path previous entries = .ok (out, left) →
        ∀ e ∈ out, e.untracked = false := by
  unfold addFile
  dsimp only
  split_ifs
  · refine ⟨nofun, ?_⟩
    rintro out left ⟨⟩
    exact h
  · refine ⟨nofun, ?_⟩
    rintro out left ⟨⟩ e he
    obtain ⟨d, hd, rfl⟩ := List.mem_map.1 he
    split_ifs
    · exact h d hd
    · exact h d hd
  · refine ⟨?_, nofun⟩
    rintro out ⟨⟩
    exact h
  · refine ⟨nofun, ?_⟩
    rintro out left ⟨⟩ e he
    rcases List.mem_append.1 he with he | he
    · exact h e he
    · obtain rfl := List.mem_singleton.1 he
      rfl

theorem listingLoop_tracked : ∀ (fields : List (List Char)) (entries : List GitReviewFile)
    (truncated : Bool), (∀ e ∈ entries, e.untracked = false) →
    ∀ e ∈ (listingLoop fields entries truncated).1, e.untracked = false := by
  intro fields entries truncated
  fun_induction listingLoop fields entries truncated with
  | case1 => exact id
  | case2 _ _ _ ih => exact ih
  | case3 => exact id
  | case4 => exact id
  | case5 _ _ _ _ _ _ _ _ _ hadd => exact fun h => (addFile_tracked h).1 _ hadd
  | case6 _ _ _ _ _ _ _ _ _ _ hadd ih => exact fun h => ih ((addFile_tracked h).2 _ _ hadd)
  | case7 _ _ _ _ _ _ _ _ hadd => exact fun h => (addFile_tracked h).1 _ hadd
  | case8 _ _ _ _ _ _ _ _ _ hadd ih => exact fun h => ih ((addFile_tracked h).2 _ _ hadd)

/-- The count of a row is that of its file, or the review says that it is not whole. -/
def Counted (path : String) (n : ℕ) (truncated : Bool) (row : GitReviewFile) : Prop :=
  row.untracked = true → row.path = path → row.added = some n ∨ row.added = none ∧ truncated = true

theorem Counted.mono {path : String} {n : ℕ} {t t' : Bool} {row : GitReviewFile}
    (h : Counted path n t row) (ht : t = true → t' = true) : Counted path n t' row :=
  fun hrow hpath => (h hrow hpath).imp_right (And.imp_right ht)

theorem untrackedFile_counted {path row : String} {file : List UInt8} (hnul : (0 : UInt8) ∉ file)
    (hlimit : file.length ≤ contentLimit) (hrow : content row = some file) (t : Bool) :
    ∀ {other : List UInt8}, content path = some other → path = row → 
      Counted row (addedLines file) t
        (untrackedFile path (untrackedContent other).1 (untrackedContent other).2) := by
  rintro other hother rfl - -
  obtain rfl := Option.some.inj (hother.symm.trans hrow)
  left
  rw [untrackedContent, List.take_of_length_le hlimit, decide_eq_false (by omega)]
  simp [untrackedFile, hnul]

theorem addUntracked_counted {path : String} {file : List UInt8} (hnul : (0 : UInt8) ∉ file)
    (hlimit : file.length ≤ contentLimit) (hfile : content path = some file) :
    ∀ (paths : List String) (entries : List GitReviewFile) (bytes : ℕ) (truncated : Bool),
      (∀ row ∈ entries, Counted path (addedLines file) truncated row) →
      ∀ row ∈ (addUntracked content paths entries bytes truncated).1,
        Counted path (addedLines file) (addUntracked content paths entries bytes truncated).2 row
  | [], _, _, _, h => h
  | p :: paths, entries, bytes, truncated, h => by
    have hunread : ∀ row ∈ entries ++
        [{ path := p, previousPath := none, status := "A", untracked := true }],
        Counted path (addedLines file) true row := by
      intro row hrow
      rcases List.mem_append.1 hrow with hrow | hrow
      · exact (h row hrow).mono fun _ => rfl
      · obtain rfl := List.mem_singleton.1 hrow
        exact fun _ _ => .inr ⟨rfl, rfl⟩
    unfold addUntracked
    split_ifs
    · exact fun row hrow => (h row hrow).mono fun _ => rfl
    · split
      · rename_i other hother
        refine addUntracked_counted hnul hlimit hfile paths _ _ _ fun row hrow => ?_
        rcases List.mem_append.1 hrow with hrow | hrow
        · exact (h row hrow).mono fun ht => by rw [ht, Bool.true_or]
        · obtain rfl := List.mem_singleton.1 hrow
          intro hut hpath
          exact untrackedFile_counted hnul hlimit hfile _ hother hpath hut hpath
      · exact addUntracked_counted hnul hlimit hfile paths _ _ _ hunread
    · exact addUntracked_counted hnul hlimit hfile paths _ _ _ hunread

/-- What the review shows of a file that is not tracked. -/
theorem review_counted {path : String} {file : List UInt8} (hnul : (0 : UInt8) ∉ file)
    (hlimit : file.length ≤ contentLimit) (hfile : content path = some file)
    (scope : GitReviewScope) (names numstat : List Char × Bool)
    (changed : List GitChange × Bool) :
    ∀ row ∈ (review scope names numstat changed content).1,
      Counted path (addedLines file) (review scope names numstat changed content).2 row := by
  have hlisted : ∀ (stats : List (List Char × Stat)) (t : Bool),
      ∀ row ∈ (listing names).1.map (withStat stats), Counted path (addedLines file) t row := by
    intro stats t row hrow hut
    obtain ⟨e, he, rfl⟩ := List.mem_map.1 hrow
    have htracked := listingLoop_tracked _ [] names.2 (fun _ h => absurd h List.not_mem_nil) e he
    unfold withStat at hut
    split at hut <;> exact absurd (htracked.symm.trans hut) Bool.false_ne_true
  intro row hrow
  unfold review at hrow ⊢
  dsimp only at hrow ⊢
  rw [List.mem_mergeSort] at hrow
  split_ifs at hrow ⊢
  · exact addUntracked_counted hnul hlimit hfile _ _ _ _ (hlisted _ _) row hrow
  · exact hlisted _ _ row hrow

end Rows

section Untracked

variable {scope : GitReviewScope} {current head : Option String} {names : List Char × Bool}
variable {gitDiff : GitReviewFile → List Char × Bool} {changed : List GitChange × Bool}
variable {content : String → Option (List UInt8)} {path : String} {text : List Char}

/-- A patch makes a file of an empty one, its header counts the lines that it adds and that a
review shows, and its path is the file's. -/
structure RoundTrip (scope : GitReviewScope) (content : String → Option (List UInt8))
    (path : String) (text : List Char) (p : Patch.New) : Prop where
  applied : asBytes p.apply = asBytes text
  lines : p.count = p.lines.length
  shown : ∀ names numstat changed, ∀ row ∈ (review scope names numstat changed content).1,
    Counted path p.count (review scope names numstat changed content).2 row
  path : p.path = asBytes ("b/".toList ++ path.toList)

/-- The diff of a file that is not tracked. -/
theorem diff_untracked (hpath : validPath path = true) (hhead : scope = .worktree → current = head)
    (hscope : scope = .worktree ∨ scope = .unstaged)
    (hlisted : ∀ e ∈ (listing names).1, e.path ≠ path)
    (huntracked : ∃ e ∈ changed.1, e.path = path ∧ e.changeSection = .untracked)
    (hcontent : content path = some (asBytes text)) :
    diff scope current names gitDiff changed content head path =
      some (untrackedDiff path (asBytes text)) := by
  have hcurrent : ¬((scope = .worktree ∨ scope = .staged) ∧ current ≠ head) := by
    rintro ⟨rfl | rfl, hne⟩
    · exact hne (hhead rfl)
    · rcases hscope with h | h <;> cases h
  have hfind : (listing names).1.find? (·.path = path) = none := by
    rw [List.find?_eq_none]
    intro e he
    simpa using hlisted e he
  obtain ⟨e, he, hname, hsection⟩ := huntracked
  have hany : (changed.1.any fun e => e.path = path ∧ e.changeSection = .untracked) = true :=
    List.any_eq_true.2 ⟨e, he, by simp [hname, hsection]⟩
  rw [diff, if_neg (by simp [hpath]), if_neg hcurrent, hfind]
  dsimp only
  rw [if_pos hscope, if_pos hany, hcontent]
  rfl

/-- The patch of a file, read, is its lines under its path. -/
theorem roundTrip_iff (scope : GitReviewScope)
    (hcontent : content path = some (asBytes text)) (hnul : (0 : UInt8) ∉ asBytes text)
    (hlimit : (asBytes text).length ≤ contentLimit) :
    (∃ patch p, untrackedDiff path (asBytes text) = (patch, false) ∧ Patch.read patch = some p ∧
      RoundTrip scope content path text p) ↔ ¬['\r', '\n'] <:+: text := by
  have hread := @read_patchFields ("b/".toList ++ path.toList) (textLines text)
    ((asBytes text).getLast? = some 10 ∨ asBytes text = []) fun line => textLines_free
  have hcount : addedLines (asBytes text) = (textLines text).length :=
    addedLines_eq (lt_of_le_of_lt hlimit (by decide))
  rw [untrackedDiff_eq hnul hlimit]
  constructor
  · rintro ⟨patch, p, hpatch, hp, htrip⟩
    obtain rfl := (Prod.mk.inj hpatch).1
    obtain rfl := Option.some.inj (hread.symm.trans hp)
    exact (apply_eq_iff _ _ text).1 (asBytes_injective htrip.applied)
  · intro hnone
    refine ⟨_, _, rfl, hread, ?_, rfl, fun names numstat changed => ?_, rfl⟩
    · exact congrArg asBytes ((apply_eq_iff _ _ text).2 hnone)
    · rw [← hcount]
      exact review_counted hnul hlimit hcontent scope names numstat changed

/-- A project with one file that is not tracked. -/
def newFile : List GitChange × Bool :=
  ([{ path := "a", previousPath := none, changeSection := .untracked, status := "?" }], false)

end Untracked

end Git

end LatteWork
