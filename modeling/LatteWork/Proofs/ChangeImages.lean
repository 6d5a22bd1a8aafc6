import LatteWork.Lib.Chunks
import LatteWork.Workbench.ChangeImageLoader

/-!
# The image of a change is of one version

A chunk of the worktree tells what is recorded of the file, which no change keeps; a chunk of a stored
snapshot tells the hash that the whole is compared with; a chunk of a blob tells the blob. So chunks
that tell the same are chunks of one version.
-/

namespace LatteWork

open Fallible

namespace ImagePreview

section identity

theorem toString_nat_inj {a b : ℕ} (h : toString a = toString b) : a = b := by
  have hchars : (toString a).toList = (toString b).toList := congrArg String.toList h
  simp only [Nat.toString_eq_ofList_toDigits, String.toList_ofList] at hchars
  rw [← Nat.ofDigitChars_ten_toDigits (n := a), hchars, Nat.ofDigitChars_ten_toDigits]

theorem digit_of_mem {n : ℕ} {c : Char} (h : c ∈ (toString n).toList) : c.isDigit = true := by
  simp only [Nat.toString_eq_ofList_toDigits, String.toList_ofList] at h
  exact Nat.isDigit_of_mem_toDigits (by omega) (by omega) h

theorem toString_int (a : ℤ) :
    toString a = if 0 ≤ a then toString a.toNat else "-" ++ toString (-a).toNat := by
  rw [Int.toString_eq_repr, Int.repr_eq_if]
  rfl

theorem toString_int_inj {a b : ℤ} (h : toString a = toString b) : a = b := by
  have hsign : ∀ m n : ℕ, toString m ≠ "-" ++ toString n := fun m n heq => by
    have hmem : '-' ∈ (toString m).toList := by
      rw [heq, String.toList_append]
      exact List.mem_append_left _ (by decide)
    exact absurd (digit_of_mem hmem) (by decide)
  rw [toString_int a, toString_int b] at h
  split_ifs at h with ha hb hb
  · have := toString_nat_inj h
    omega
  · exact absurd h (hsign _ _)
  · exact absurd h.symm (hsign _ _)
  · have := toString_nat_inj ((String.append_right_inj "-").1 h)
    omega

theorem colon_notMem_nat (n : ℕ) : ':' ∉ (toString n).toList := fun h =>
  absurd (digit_of_mem h) (by decide)

theorem colon_notMem_int (a : ℤ) : ':' ∉ (toString a).toList := by
  rw [toString_int]
  split
  · exact colon_notMem_nat _
  · rw [String.toList_append, List.mem_append, not_or]
    exact ⟨by decide, colon_notMem_nat _⟩

theorem behind_separator {α : Type} {c : α} {x y : List α} : ∀ {a b : List α}, c ∉ a → c ∉ b →
    a ++ c :: x = b ++ c :: y → a = b ∧ x = y
  | [], [], _, _, h => ⟨rfl, List.tail_eq_of_cons_eq h⟩
  | [], d :: b, _, hb, h => absurd (List.head_eq_of_cons_eq h) (List.ne_of_not_mem_cons hb)
  | d :: a, [], ha, _, h => absurd (List.head_eq_of_cons_eq h).symm (List.ne_of_not_mem_cons ha)
  | d :: a, e :: b, ha, hb, h => by
    obtain ⟨rfl, htail⟩ := List.cons.inj h
    obtain ⟨rfl, hxy⟩ := behind_separator (List.not_mem_of_not_mem_cons ha)
      (List.not_mem_of_not_mem_cons hb) htail
    exact ⟨rfl, hxy⟩

theorem behind_colon {a b x y : String} (ha : ':' ∉ a.toList) (hb : ':' ∉ b.toList)
    (h : a ++ (":" ++ x) = b ++ (":" ++ y)) : a = b ∧ x = y := by
  have hcolon : ":".toList = [':'] := rfl
  have hchars := congrArg String.toList h
  simp only [String.toList_append, hcolon, List.singleton_append] at hchars
  obtain ⟨hab, hxy⟩ := behind_separator ha hb hchars
  exact ⟨String.toList_inj.1 hab, String.toList_inj.1 hxy⟩

/-- The identity of a file tells all that is recorded of it. -/
theorem recorded_of_identity {m n : Inode} (h : m.identity = n.identity) :
    m.recorded = n.recorded := by
  unfold Inode.identity at h
  simp only [String.append_assoc] at h
  obtain ⟨hdev, h⟩ := behind_colon (colon_notMem_nat _) (colon_notMem_nat _) h
  obtain ⟨hino, h⟩ := behind_colon (colon_notMem_nat _) (colon_notMem_nat _) h
  obtain ⟨hmtime, h⟩ := behind_colon (colon_notMem_int _) (colon_notMem_int _) h
  obtain ⟨hnsec, hlen⟩ := behind_colon (colon_notMem_int _) (colon_notMem_int _) h
  unfold Inode.recorded
  rw [toString_nat_inj hdev, toString_nat_inj hino, toString_int_inj hmtime, toString_int_inj hnsec,
    toString_nat_inj hlen]

/-- No blob of the repository is named like a file of the worktree. -/
theorem not_validOid_identity (m : Inode) : validOid m.identity = false := by
  have hmem : 58 ∈ m.identity.toUTF8.data.toList := by
    unfold Inode.identity
    simp only [String.toUTF8, String.toByteArray_append, ByteArray.data_append, Array.toList_append,
      List.mem_append]
    exact .inl (.inr (by decide))
  rw [validOid, Bool.and_eq_false_iff]
  refine .inr (Bool.eq_false_iff.2 fun hall => ?_)
  exact absurd (List.all_eq_true.1 hall 58 hmem) (by decide)

end identity

/-- A chunk of these bytes at this offset. -/
structure Slice (bytes : List UInt8) (offset : ℕ) (p : ImagePreviewChunk) : Prop where
  data : p.data = (bytes.drop offset).take 65536
  size : p.size = bytes.length
  next : p.next = offset + p.data.length

variable {svc : Services} {w : Schedule} {i offset size : ℕ} {data header bytes : List UInt8}
  {version : String} {sha256 : Option String} {p : ImagePreviewChunk}

theorem chunk_ok (h : chunk data header size offset version sha256 = .ok p) :
    p.data = data ∧ p.size = size ∧ p.next = offset + p.data.length ∧ p.version = version ∧
      p.sha256 = sha256 := by
  simp only [chunk, bind_eq_ok, bailIf_eq_ok] at h
  obtain ⟨-, -, -, -, -, -, -, -, h⟩ := h
  obtain rfl := Except.ok.inj h
  exact ⟨rfl, rfl, rfl, rfl, rfl⟩

/-- What a request reads of a file is a chunk of what was at the path when it began. -/
theorem file_ok {live : LiveFile} {v : Visit} {told : Option String} (hrec : live.Recorded)
    (h : file live v offset told sha256 = .ok p) :
    ∃ f, live.lookup v.stat = some f ∧ (live.inode f v.stat).isFile = true ∧
      Slice (live.inode f v.stat).bytes offset p ∧
      p.version = told.getD (live.inode f v.stat).identity ∧ p.sha256 = sha256 := by
  simp only [file, bind_eq_ok, bailIf_eq_ok, orError_eq_ok, Option.map_eq_some_iff] at h
  obtain ⟨-, ⟨f, hlookup, rfl⟩, -, hregular, -, -, g, hopened, -, hlooked, -, hread, h⟩ := h
  obtain ⟨hdata, hsize, hnext, hversion, hsha⟩ := chunk_ok h
  have hfstat := recorded_of_identity (not_not.1 hlooked)
  have hdone := recorded_of_identity (not_not.1 hread)
  have hstill := live.read_still (hrec.still v.reads (hfstat.symm.trans hdone))
  refine ⟨f, hlookup, by simpa using hregular, ⟨?_, hsize, hnext⟩, hversion, hsha⟩
  rw [hdata, hstill, hrec.same hfstat]

theorem steady_recorded (bytes : List UInt8) : (LiveFile.steady bytes).Recorded where
  still _ _ _ _ _ := rfl
  same _ := rfl

/-- These are the bytes that contents stand for in the object directory. -/
def Holds (objects : Objects) : Contents → List UInt8 → Prop
  | .legacy stored, bytes => bytes = stored
  | .object o, bytes => o.path objects = .ok bytes

theorem Holds.length {objects : Objects} {c : Contents} (h : Holds objects c bytes) :
    bytes.length = c.len := by
  cases c with
  | legacy stored => exact congrArg List.length h
  | object o =>
    simp only [Holds, Object.path, bind_eq_ok, bailIf_eq_ok, orError_eq_ok] at h
    obtain ⟨-, -, -, -, stored, -, -, hsize, h⟩ := h
    obtain rfl := Except.ok.inj h
    exact not_not.1 hsize

theorem Holds.unique {objects : Objects} {c : Contents} {other : List UInt8}
    (h : Holds objects c bytes) (h' : Holds objects c other) : bytes = other := by
  cases c with
  | legacy stored => exact h.trans h'.symm
  | object o => exact Except.ok.inj (h.symm.trans h')

theorem contents_ok {objects : Objects} {c : Contents} (h : c.imageChunk svc objects offset = .ok p) :
    ∃ bytes, Holds objects c bytes ∧ Slice bytes offset p ∧ p.version = c.digest svc ∧
      p.sha256 = some (c.digest svc) := by
  cases c with
  | legacy stored =>
    simp only [Contents.imageChunk, bind_eq_ok, bailIf_eq_ok] at h
    obtain ⟨-, -, h⟩ := h
    obtain ⟨hdata, hsize, hnext, hversion, hsha⟩ := chunk_ok h
    refine ⟨stored, rfl, ⟨?_, hsize, hnext⟩, hversion, hsha⟩
    rw [hdata, ← List.take_take, List.take_length, List.drop_take, Nat.add_sub_cancel_left]
  | object o =>
    simp only [Contents.imageChunk, bind_eq_ok] at h
    obtain ⟨bytes, hpath, h⟩ := h
    obtain ⟨f, -, -, hslice, hversion, hsha⟩ := file_ok (steady_recorded bytes) h
    exact ⟨bytes, hpath, hslice, hversion, hsha⟩

theorem gitChunk_ok {oid : String} (h : gitChunk bytes oid offset = .ok p) :
    validOid oid = true ∧ Slice bytes offset p ∧ p.version = oid ∧ p.sha256 = none := by
  simp only [gitChunk, bind_eq_ok, bailIf_eq_ok] at h
  obtain ⟨-, hoid, -, -, h⟩ := h
  obtain ⟨hdata, hsize, hnext, hversion, hsha⟩ := chunk_ok h
  refine ⟨by simpa using hoid, ⟨?_, hsize, hnext⟩, hversion, hsha⟩
  rw [hdata]
  set header := bytes.take (min bytes.length 512) with hheader
  have hlength : header.length = min bytes.length 512 := by
    rw [hheader, List.length_take, Nat.min_eq_left (Nat.min_le_left _ _)]
  have hsplit : header ++ bytes.drop header.length = bytes := by
    rw [hlength, hheader, List.take_append_drop]
  split_ifs with hlt
  · have hrest : bytes.drop offset = header.drop offset ++ bytes.drop header.length := by
      conv_lhs => rw [← hsplit, List.drop_append_of_le_length hlt.le]
    have hshort : (header.drop offset).length ≤ 65536 := by
      rw [List.length_drop, hlength]
      omega
    rw [hrest, List.take_append, List.take_of_length_le hshort]
  · simp

/-- The contents that a request finds in a stored snapshot. -/
def Schedule.contents (svc : Services) (w : Schedule) (i : ℕ) : Option Contents :=
  let find (s : Snapshot) := (s.materialized svc (w.objects i)).toOption.bind (·.contents w.path)
  match w.side i with
  | .turn t before => find (if before then t.before else t.after)
  | .baseline s => find s
  | _ => none

/-- What a request finds: the version it tells, the hash, and the bytes. -/
inductive Schedule.Finds (svc : Services) (w : Schedule) (i : ℕ) :
    String → Option String → List UInt8 → Prop
  | stored {c : Contents} {bytes : List UInt8} : w.contents svc i = some c →
      Holds (w.objects i) c bytes → w.Finds svc i (c.digest svc) (some (c.digest svc)) bytes
  | working {f : ℕ} : w.side i = .working → w.live.lookup (w.visit i).stat = some f →
      (w.live.inode f (w.visit i).stat).isFile = true →
      w.Finds svc i (w.live.inode f (w.visit i).stat).identity none
        (w.live.inode f (w.visit i).stat).bytes
  | blob {oid : String} : w.side i = .blob oid → validOid oid = true →
      w.Finds svc i oid none (w.blob oid)

theorem snapshot_ok {objects : Objects} {s : Snapshot} {path : String}
    (h : s.imageChunk svc objects path offset = .ok (some p)) :
    ∃ c, (s.materialized svc objects).toOption.bind (·.contents path) = some c ∧
      c.imageChunk svc objects offset = .ok p := by
  simp only [Snapshot.imageChunk, bind_eq_ok] at h
  obtain ⟨-, -, m, hm, h⟩ := h
  split at h
  · cases h
  split at h
  · rename_i c hlookup
    simp only [map_eq_ok, Option.some.injEq] at h
    obtain ⟨_, hc, rfl⟩ := h
    refine ⟨c, ?_, hc⟩
    rw [hm, Except.toOption, Option.bind_some, Snapshot.contents, hlookup, Option.join_some]
  · cases h
  · split at h
    · cases h
    · cases Except.ok.inj h

theorem respond_ok (hrec : w.live.Recorded) (h : w.respond svc i offset = .ok (some p)) :
    ∃ bytes, w.Finds svc i p.version p.sha256 bytes ∧ Slice bytes offset p := by
  have hstored {s : Snapshot} (hs : s.imageChunk svc (w.objects i) w.path offset = .ok (some p))
      (hcontents : w.contents svc i =
        (s.materialized svc (w.objects i)).toOption.bind (·.contents w.path)) :
      ∃ bytes, w.Finds svc i p.version p.sha256 bytes ∧ Slice bytes offset p := by
    obtain ⟨c, hc, hchunk⟩ := snapshot_ok hs
    obtain ⟨bytes, hholds, hslice, hversion, hsha⟩ := contents_ok hchunk
    rw [hversion, hsha]
    exact ⟨bytes, .stored (hcontents.trans hc) hholds, hslice⟩
  unfold Schedule.respond at h
  cases hside : w.side i with
  | refused error =>
    rw [hside] at h
    cases h
  | absent =>
    rw [hside] at h
    cases Except.ok.inj h
  | turn t before =>
    simp only [hside, FrozenTurn.imageChunk, bind_eq_ok] at h
    obtain ⟨-, -, -, -, entry, -, h⟩ := h
    split at h
    · cases Except.ok.inj h
    · exact hstored h (by rw [Schedule.contents, hside])
  | baseline s =>
    rw [hside] at h
    exact hstored h (by rw [Schedule.contents, hside])
  | working =>
    simp only [hside, map_eq_ok, Option.some.injEq] at h
    obtain ⟨_, h, rfl⟩ := h
    obtain ⟨f, hlookup, hregular, hslice, hversion, hsha⟩ := file_ok hrec h
    rw [hversion, hsha]
    exact ⟨_, .working hside hlookup hregular, hslice⟩
  | blob oid =>
    simp only [hside, map_eq_ok, Option.some.injEq] at h
    obtain ⟨_, h, rfl⟩ := h
    obtain ⟨hoid, hslice, hversion, hsha⟩ := gitChunk_ok h
    rw [hversion, hsha]
    exact ⟨_, .blob hside hoid, hslice⟩

end ImagePreview

namespace ChangeImageLoader

open ImagePreview

variable {respond : ℕ → ℕ → Option (Except String (Option ImagePreviewChunk))}
  {sha256 : List UInt8 → String} {watch : Watch} {fuel i : ℕ} {st : LoadState}
  {x : Option (Except String (Option ChangeImage))} {texts : ℕ → List UInt8} {image : ChangeImage}

/-- The state behind a chunk. -/
def carry (st : LoadState) (p : ImagePreviewChunk) : LoadState where
  bytes := st.bytes ++ p.data
  offset := p.next
  size := p.size
  version := p.version
  mime := p.mimeType
  hash := p.sha256

/-- What a turn of the loop can do. -/
theorem loadLoop_cases (h : loadLoop respond sha256 watch (fuel + 1) i st = x) :
    (∃ e, x = some (.error e)) ∨
    (x = some (.ok none) ∧ st.offset = 0 ∧ respond i st.offset = some (.ok none)) ∨
    ∃ p, respond i st.offset = some (.ok (some p)) ∧ changed st p = false ∧
      ((p.hasMore = true ∧ loadLoop respond sha256 watch fuel (i + 1) (carry st p) = x) ∨
        (p.hasMore = false ∧ corrupt sha256 (carry st p).bytes p.sha256 = false ∧
          x = some (.ok (some ⟨(carry st p).bytes, p.mimeType⟩)))) := by
  rw [loadLoop] at h
  split at h
  · exact .inl ⟨_, h.symm⟩
  split at h
  · exact .inl ⟨_, h.symm⟩
  split at h
  · exact .inl ⟨_, h.symm⟩
  · split at h
    · exact .inl ⟨_, h.symm⟩
    · exact .inl ⟨_, h.symm⟩
  rename_i hresponse
  split at h
  · exact .inl ⟨_, h.symm⟩
  split at h
  · split at h
    · exact .inl ⟨_, h.symm⟩
    · rename_i hoffset
      exact .inr (.inl ⟨h.symm, not_not.1 hoffset, hresponse⟩)
  split at h
  · exact .inl ⟨_, h.symm⟩
  rename_i p hchanged
  rw [Bool.not_eq_true] at hchanged
  dsimp only at h
  split at h
  · rename_i hmore
    exact .inr (.inr ⟨p, hresponse, hchanged, .inl ⟨hmore, h⟩⟩)
  rename_i hmore
  split at h
  · exact .inl ⟨_, h.symm⟩
  rename_i hcorrupt
  split at h
  · exact .inl ⟨_, h.symm⟩
  refine .inr (.inr ⟨p, hresponse, hchanged, .inr ⟨?_, ?_, h.symm⟩⟩)
  · exact Bool.eq_false_of_not_eq_true hmore
  · exact Bool.eq_false_of_not_eq_true hcorrupt

/-- A chunk that is taken is one behind those before it, of the same version. -/
structure Follows (st : LoadState) (p : ImagePreviewChunk) : Prop where
  pos : 0 < p.size
  bound : p.size ≤ 16 * 1024 * 1024
  next : p.next = st.offset + p.data.length
  within : p.next ≤ p.size
  more : p.hasMore = true ↔ p.next < p.size
  data : p.hasMore = true → 0 < p.data.length
  named : p.version ≠ ""
  same : st.offset ≠ 0 → st.size = p.size ∧ st.version = p.version ∧ st.mime = p.mimeType ∧
    st.hash = p.sha256

theorem follows_of_changed {p : ImagePreviewChunk} (h : changed st p = false) : Follows st p := by
  simp only [changed, Bool.or_eq_false_iff, Bool.and_eq_false_iff, decide_eq_false_iff_not,
    Nat.not_lt, not_not] at h
  obtain ⟨⟨⟨⟨⟨⟨⟨⟨⟨⟨-, hpos⟩, hbound⟩, -⟩, hnext⟩, hwithin⟩, hmore⟩, hdata⟩, -⟩, hnamed⟩, hsame⟩ := h
  refine ⟨Nat.pos_of_ne_zero hpos, hbound, hnext, hwithin, ?_, fun hm => ?_, hnamed, fun hne => ?_⟩
  · rw [hmore, decide_eq_true_iff]
  · rw [hm] at hdata
    exact List.length_pos_of_ne_nil (hdata.resolve_left Bool.noConfusion)
  · obtain ⟨⟨⟨hsize, hversion⟩, hmime⟩, hhash⟩ := hsame.resolve_left hne
    exact ⟨hsize, hversion, hmime, hhash⟩

/-- Every turn that goes on has read a byte, so the loop ends. -/
theorem loadLoop_ends : ∀ (fuel : ℕ) {i : ℕ} {st : LoadState}, st.offset ≤ 16 * 1024 * 1024 →
    16 * 1024 * 1024 < fuel + st.offset → loadLoop respond sha256 watch fuel i st ≠ none
  | 0, _, _, hle, hfuel, _ => by omega
  | fuel + 1, i, st, _, hfuel, h => by
    obtain ⟨e, hx⟩ | ⟨hx, -⟩ | ⟨p, -, hchanged, ⟨hmore, h⟩ | ⟨-, -, hx⟩⟩ := loadLoop_cases h
    · cases hx
    · cases hx
    · have hp := follows_of_changed hchanged
      have hnext : (carry st p).offset = st.offset + p.data.length := hp.next
      have hdata := hp.data hmore
      have hwithin : (carry st p).offset ≤ p.size := hp.within
      exact loadLoop_ends fuel (hwithin.trans hp.bound) (by omega) h
    · cases hx

/-- Only the first request may find no file. -/
theorem loadLoop_absent : ∀ (fuel : ℕ) {i : ℕ} {st : LoadState},
    loadLoop respond sha256 watch fuel i st = some (.ok none) →
      st.offset = 0 ∧ respond i st.offset = some (.ok none)
  | 0, _, _, h => by cases h
  | fuel + 1, i, st, h => by
    obtain ⟨e, hx⟩ | ⟨-, hfound⟩ | ⟨p, -, hchanged, ⟨hmore, h⟩ | ⟨-, -, hx⟩⟩ := loadLoop_cases h
    · cases hx
    · exact hfound
    · have hp := follows_of_changed hchanged
      have hnext : (carry st p).offset = st.offset + p.data.length := hp.next
      have hdata := hp.data hmore
      have hzero := (loadLoop_absent fuel h).1
      omega
    · cases hx

/-- What the loop carries before a request. -/
structure Carried (texts : ℕ → List UInt8) (i : ℕ) (st : LoadState) : Prop where
  offset : st.offset = i * 65536
  bytes : st.bytes = Chunks.assemble 65536 texts i
  more : i ≠ 0 → i * 65536 < st.size

/-- A request tells this of the image. -/
def Tells (respond : ℕ → ℕ → Option (Except String (Option ImagePreviewChunk))) (size : ℕ)
    (version mime : String) (hash : Option String) (i : ℕ) : Prop :=
  ∃ p, respond i (i * 65536) = some (.ok (some p)) ∧ p.size = size ∧ p.version = version ∧
    p.mimeType = mime ∧ p.sha256 = hash

/-- What is loaded is told alike by all requests, and is what they tell. -/
theorem loadLoop_ok (hslice : ∀ i p, respond i (i * 65536) = some (.ok (some p)) →
      Slice (texts i) (i * 65536) p) : ∀ (fuel : ℕ) {i : ℕ} {st : LoadState}, Carried texts i st →
    loadLoop respond sha256 watch fuel i st = some (.ok (some image)) →
      ∃ n size version hash, i ≤ n ∧ n * 65536 < size ∧ size ≤ (n + 1) * 65536 ∧ version ≠ "" ∧
        (∀ j, i ≤ j → j ≤ n → Tells respond size version image.mime hash j) ∧
        (i ≠ 0 → st.size = size ∧ st.version = version ∧ st.mime = image.mime ∧ st.hash = hash) ∧
        image.bytes = Chunks.assemble 65536 texts (n + 1) ∧ corrupt sha256 image.bytes hash = false
  | 0, _, _, _, h => by cases h
  | fuel + 1, i, st, hst, h => by
    obtain ⟨e, hx⟩ | ⟨hx, -⟩ | ⟨p, hp, hchanged, hgo⟩ := loadLoop_cases h
    · cases hx
    · cases hx
    have hfollows := follows_of_changed hchanged
    rw [hst.offset] at hp
    have hs := hslice i p hp
    have hnext := hfollows.next
    have hlength : p.data.length = min 65536 (p.size - i * 65536) := by
      rw [hs.data, List.length_take, List.length_drop, hs.size]
    have hbefore : i * 65536 < p.size := by
      rcases Nat.eq_zero_or_pos i with rfl | hi
      · rw [Nat.zero_mul]
        exact hfollows.pos
      · have hne : st.offset ≠ 0 := by
          rw [hst.offset]
          omega
        rw [← (hfollows.same hne).1]
        exact hst.more (Nat.pos_iff_ne_zero.1 hi)
    have hsame : i ≠ 0 → st.size = p.size ∧ st.version = p.version ∧ st.mime = p.mimeType ∧
        st.hash = p.sha256 := fun hi => hfollows.same (by rw [hst.offset]; omega)
    have hbytes : (carry st p).bytes = Chunks.assemble 65536 texts (i + 1) := by
      rw [Chunks.assemble_succ, ← hst.bytes, Chunks.chunk, ← hs.data]
      rfl
    have htold : Tells respond p.size p.version p.mimeType p.sha256 i :=
      ⟨p, hp, rfl, rfl, rfl, rfl⟩
    rw [hst.offset] at hnext
    obtain ⟨hmore, h⟩ | ⟨hmore, hcorrupt, hx⟩ := hgo
    · have hlt := hfollows.more.1 hmore
      have hwhole : p.next = (i + 1) * 65536 := by omega
      have hcarried : Carried texts (i + 1) (carry st p) :=
        ⟨hwhole, hbytes, fun _ => by rw [← hwhole]; exact hlt⟩
      obtain ⟨n, size, version, hash, hle, hlow, hhigh, hnamed, htells, hkept, hall⟩ :=
        loadLoop_ok hslice fuel hcarried h
      obtain ⟨hsize, hversion, hmime, hhash⟩ := hkept (Nat.succ_ne_zero i)
      have hsize' : p.size = size := hsize
      have hversion' : p.version = version := hversion
      have hmime' : p.mimeType = image.mime := hmime
      have hhash' : p.sha256 = hash := hhash
      rw [hsize', hversion', hmime', hhash'] at htold hsame
      refine ⟨n, size, version, hash, Nat.le_of_succ_le hle, hlow, hhigh, hnamed,
        fun j hij hj => ?_, hsame, hall⟩
      rcases Nat.lt_or_eq_of_le hij with hlt | rfl
      · exact htells j hlt hj
      · exact htold
    · have hlast : ¬p.next < p.size := fun hlt => by
        rw [hfollows.more.2 hlt] at hmore
        cases hmore
      have hend : p.size ≤ (i + 1) * 65536 := by omega
      obtain rfl := Option.some.inj (Except.ok.inj (Option.some.inj hx))
      refine ⟨i, p.size, p.version, p.sha256, Nat.le_refl i, hbefore, hend, hfollows.named,
        fun j hij hj => ?_, hsame, hbytes, hcorrupt⟩
      obtain rfl := Nat.le_antisymm hij hj
      exact htold

/-- The bytes are of the version that a request tells. -/
inductive Shows (svc : Services) (w : Schedule) (i : ℕ) : String → List UInt8 → Prop
  | stored {c : Contents} {bytes : List UInt8} : w.contents svc i = some c → c.Records svc bytes →
      Shows svc w i (c.digest svc) bytes
  | working {f : ℕ} : w.side i = .working → w.live.lookup (w.visit i).stat = some f →
      (w.live.inode f (w.visit i).stat).isFile = true →
      Shows svc w i (w.live.inode f (w.visit i).stat).identity
        (w.live.inode f (w.visit i).stat).bytes
  | blob {oid : String} : w.side i = .blob oid → Shows svc w i oid (w.blob oid)

/-- All requests of a load tell one version, size and type, an image of them is what each of them is a
chunk of, and the bytes that a stored snapshot has in all of them are those of the image. -/
def OneVersion (svc : Services) (w : Schedule) (image : ChangeImage) : Prop :=
  ∃ n version,
    (∀ i ≤ n, Shows svc w i version image.bytes ∧
      ∃ p, w.respond svc i (i * 65536) = .ok (some p) ∧ p.size = image.bytes.length ∧
        p.version = version ∧ p.mimeType = image.mime ∧ p.data = Chunks.chunk 65536 image.bytes i) ∧
    ∀ bytes, (∀ i ≤ n, ∃ c, w.contents svc i = some c ∧ Holds (w.objects i) c bytes) →
      image.bytes = bytes

/-- A load of this change. -/
def load (svc : Services) (w : Schedule) (watch : Watch) :
    Option (Except String (Option ChangeImage)) :=
  loadChangeImage (fun i offset => some (w.respond svc i offset)) svc.sha256 watch

variable {svc : Services} {w : Schedule} {n size : ℕ} {version : String} {hash : Option String}
  {bytes : List UInt8}

theorem length_image (hall : ∀ i ≤ n, (texts i).length = size) (hlow : n * 65536 < size)
    (hhigh : size ≤ (n + 1) * 65536) :
    (∀ i < n, (i + 1) * 65536 ≤ (texts i).length) ∧
      (Chunks.assemble 65536 texts (n + 1)).length = size := by
  have hwhole : ∀ i < n, (i + 1) * 65536 ≤ (texts i).length := fun i hi => by
    rw [hall i hi.le]
    exact (Nat.mul_le_mul_right _ hi).trans hlow.le
  refine ⟨hwhole, ?_⟩
  rw [Chunks.assemble_succ, List.length_append, Chunks.length_assemble hwhole, Chunks.length_chunk,
    hall n (Nat.le_refl n)]
  omega

theorem image_of_const (hall : ∀ i ≤ n, texts i = bytes) (hhigh : bytes.length ≤ (n + 1) * 65536) :
    Chunks.assemble 65536 texts (n + 1) = bytes := by
  have hconst : Chunks.assemble 65536 texts (n + 1) = Chunks.assemble 65536 (fun _ => bytes) (n + 1) :=
    Chunks.assemble_congr fun i hi => by rw [hall i (Nat.le_of_lt_succ hi)]
  rw [hconst, Chunks.assemble_const, List.take_of_length_le hhigh]

theorem finds_none {i : ℕ} (h : w.Finds svc i version none bytes) :
    (∃ m : Inode, m ∈ (w.live.lookup (w.visit i).stat).map (w.live.inode · (w.visit i).stat) ∧
      w.side i = .working ∧ m.isFile = true ∧ version = m.identity ∧ bytes = m.bytes) ∨
    (w.side i = .blob version ∧ validOid version = true ∧ bytes = w.blob version) := by
  cases h with
  | working hside hlookup hregular =>
    exact .inl ⟨_, by rw [hlookup]; rfl, hside, hregular, rfl, rfl⟩
  | blob hside hoid => exact .inr ⟨hside, hoid, rfl⟩

theorem finds_some {i : ℕ} {digest : String} (h : w.Finds svc i version (some digest) bytes) :
    ∃ c, w.contents svc i = some c ∧ Holds (w.objects i) c bytes ∧ version = c.digest svc ∧
      digest = version := by
  cases h with
  | stored hc hholds => exact ⟨_, hc, hholds, rfl, rfl⟩

/-- Requests that tell the same version and no hash have read the same bytes. -/
theorem finds_unique (hrec : w.live.Recorded) {i j : ℕ} {other : List UInt8}
    (hi : w.Finds svc i version none bytes) (hj : w.Finds svc j version none other) :
    bytes = other := by
  obtain ⟨m, hm, -, -, rfl, rfl⟩ | ⟨-, hoid, rfl⟩ := finds_none hi
  · obtain ⟨m', hm', -, -, hidentity, rfl⟩ | ⟨-, hoid, -⟩ := finds_none hj
    · obtain ⟨f, -, rfl⟩ := Option.map_eq_some_iff.1 hm
      obtain ⟨g, -, rfl⟩ := Option.map_eq_some_iff.1 hm'
      exact hrec.same (recorded_of_identity hidentity)
    · rw [not_validOid_identity] at hoid
      cases hoid
  · obtain ⟨m', -, -, -, rfl, -⟩ | ⟨-, -, rfl⟩ := finds_none hj
    · rw [not_validOid_identity] at hoid
      cases hoid
    · rfl

theorem oneVersion_of_load (hrec : w.live.Recorded) {watch : Watch} {image : ChangeImage}
    (h : load svc w watch = some (.ok (some image))) : OneVersion svc w image := by
  have hfound : ∀ i, ∃ bytes, ∀ p, w.respond svc i (i * 65536) = .ok (some p) →
      w.Finds svc i p.version p.sha256 bytes ∧ Slice bytes (i * 65536) p := fun i => by
    by_cases hp : ∃ p, w.respond svc i (i * 65536) = .ok (some p)
    · obtain ⟨p, hp⟩ := hp
      obtain ⟨bytes, hfinds, hslice⟩ := respond_ok hrec hp
      refine ⟨bytes, fun q hq => ?_⟩
      obtain rfl := Option.some.inj (Except.ok.inj (hp.symm.trans hq))
      exact ⟨hfinds, hslice⟩
    · exact ⟨[], fun p h => absurd ⟨p, h⟩ hp⟩
  choose texts htexts using hfound
  have hslices : ∀ i p, some (w.respond svc i (i * 65536)) = some (.ok (some p)) →
      Slice (texts i) (i * 65536) p := fun i p hp => (htexts i p (Option.some.inj hp)).2
  rw [load, loadChangeImage] at h
  obtain ⟨n, size, version, hash, -, hlow, hhigh, hnamed, htells, -, hbytes, hcorrupt⟩ :=
    loadLoop_ok hslices loadFuel ⟨rfl, rfl, fun hz => absurd rfl hz⟩ h
  have hread : ∀ i ≤ n, ∃ p, w.respond svc i (i * 65536) = .ok (some p) ∧ p.size = size ∧
      p.version = version ∧ p.mimeType = image.mime ∧ w.Finds svc i version hash (texts i) ∧
      Slice (texts i) (i * 65536) p := fun i hi => by
    obtain ⟨p, hp, hsize, rfl, hmime, rfl⟩ := htells i (Nat.zero_le i) hi
    obtain ⟨hfinds, hslice⟩ := htexts i p (Option.some.inj hp)
    exact ⟨p, Option.some.inj hp, hsize, rfl, hmime, hfinds, hslice⟩
  have hsize : ∀ i ≤ n, (texts i).length = size := fun i hi => by
    obtain ⟨p, -, rfl, -, -, -, hslice⟩ := hread i hi
    exact hslice.size.symm
  obtain ⟨hwhole, hlength⟩ := length_image hsize hlow hhigh
  rw [← hbytes] at hlength
  have hconst {b : List UInt8} (hall : ∀ i ≤ n, texts i = b) : image.bytes = b := by
    rw [hbytes]
    refine image_of_const hall ?_
    rwa [← hall n (Nat.le_refl n), hsize n (Nat.le_refl n)]
  have hsame (hnone : hash = none) {i : ℕ} (hi : i ≤ n) : image.bytes = texts i := by
    refine hconst fun j hj => ?_
    obtain ⟨-, -, -, -, -, hj, -⟩ := hread j hj
    obtain ⟨-, -, -, -, -, hi, -⟩ := hread i hi
    rw [hnone] at hi hj
    exact finds_unique hrec hj hi
  refine ⟨n, version, fun i hi => ?_, fun b hb => hconst fun i hi => ?_⟩
  · obtain ⟨p, hp, hpsize, hpversion, hpmime, hfinds, hslice⟩ := hread i hi
    refine ⟨?_, p, hp, hpsize.trans hlength.symm, hpversion, hpmime, ?_⟩
    · rcases hash with _ | digest
      · rw [← hsame rfl hi] at hfinds
        obtain ⟨m, hm, hside, hregular, rfl, hm'⟩ | ⟨hside, -, hb⟩ := finds_none hfinds
        · obtain ⟨f, hlookup, rfl⟩ := Option.map_eq_some_iff.1 hm
          rw [hm']
          exact .working hside hlookup hregular
        · rw [hb]
          exact .blob hside
      · obtain ⟨c, hc, hholds, rfl, rfl⟩ := finds_some hfinds
        have hsha : svc.sha256 image.bytes = c.digest svc := by
          simpa [corrupt, hnamed] using hcorrupt
        exact .stored hc ⟨by rw [hlength, ← hsize i hi, hholds.length], hsha⟩
    · rw [hbytes, Chunks.chunk_assemble hwhole i hi, hslice.data]
      rfl
  · obtain ⟨c, hc, hholds⟩ := hb i hi
    obtain ⟨-, -, -, -, -, hfinds, -⟩ := hread i hi
    rcases hash with _ | digest
    · obtain ⟨-, -, hside, -⟩ | ⟨hside, -⟩ := finds_none hfinds <;>
      · rw [Schedule.contents, hside] at hc
        cases hc
    · obtain ⟨c', hc', hholds', -⟩ := finds_some hfinds
      obtain rfl := Option.some.inj (hc.symm.trans hc')
      exact hholds'.unique hholds

/-- A small image of the worktree. -/
def smallPng : Schedule where
  path := "image.png"
  side _ := .working
  objects _ := []
  live := .steady [0x89, 80, 78, 71, 13, 10, 26, 10, 97]
  visit i := ⟨4 * i, 4 * i + 1, 4 * i + 2, 4 * i + 3, by omega, by omega, by omega⟩
  blob _ := []

def noServices : Services where
  sha256 _ := ""
  parseSnapshot _ := none
  parseSummary _ := none
  numstat _ := .error ""

end ChangeImageLoader

end LatteWork
