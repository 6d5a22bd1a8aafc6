import LatteWork.Lib.Chunks
import LatteWork.Workbench.SourceLoader
import Mathlib.Order.Monotone.Basic

/-!
# The versions in a source preview

A file that changes between two requests is noticed by its size and by what its first bytes say.
What is loaded is of one version unless the file is written anew with both the same: then it has the
chunks of the versions that they were read from.
-/

namespace LatteWork

namespace SourceLoader

open Preview

/-! ### It ends -/

theorem limit_bounds (full : Bool) (mime : String) :
    limit full mime % 65536 = 0 ∧ 65536 ≤ limit full mime ∧ limit full mime ≤ 32 * 1024 * 1024 := by
  unfold limit
  split_ifs <;> omega

/-- The loop ends for every server, within its requests. -/
theorem loadLoop_ends (respond : ℕ → ℕ → Except String SourceResponse) (watch : Watch) (full : Bool) :
    ∀ (fuel i : ℕ) (st : LoadState), 32 * 1024 * 1024 < fuel + st.offset →
      st.offset ≤ 32 * 1024 * 1024 → loadLoop respond watch full fuel i st ≠ none
  | 0, _, _, h, hle => by omega
  | fuel + 1, i, st, h, hle => by
    rw [loadLoop]
    split
    · simp
    split
    · simp
    split
    · simp
    split
    · simp
    split
    · simp
    · simp
    · rename_i p _
      split_ifs with hchanged hsize hnext
      · simp
      · simp
      · simp
      dsimp only
      split_ifs with hlast
      · simp
      · have hbounds := limit_bounds full p.mimeType
        simp only [changed, Bool.or_eq_true, decide_eq_true_eq, Bool.and_eq_true, not_or,
          not_and] at hchanged
        obtain ⟨⟨⟨⟨⟨-, -⟩, -⟩, hoffset⟩, hdata⟩, -⟩ := hchanged
        rw [not_or, Bool.not_eq_false] at hlast
        have hpos : 0 < p.data.length := List.length_pos_iff.2 (hdata hlast.1)
        have hstep : p.next = st.offset + p.data.length := not_not.1 hoffset
        have hlimit := hlast.2
        refine loadLoop_ends respond watch full fuel (i + 1) _ ?_ ?_
        · dsimp only
          omega
        · dsimp only
          omega

/-- A load returns, whatever the server responds. -/
theorem loadSource_ends (respond : ℕ → ℕ → Except String SourceResponse) (watch : Watch) (full : Bool) :
    loadSource respond watch full ≠ none :=
  loadLoop_ends respond watch full loadFuel 0 {} (by simp [loadFuel]) (Nat.zero_le _)

/-! ### A file that changes between the requests -/

/-- What the path leads to at any time, and when the requests are answered. -/
structure Schedule where
  file : ℕ → Preview.Node
  time : ℕ → ℕ
  mono : Monotone time
  extension : Option String
  watch : Watch

namespace Schedule

def respond (w : Schedule) (i offset : ℕ) : Except String SourceResponse :=
  preview w.extension (w.file (w.time i)) offset

/-- The bytes of the version that a request is answered from. -/
def content (w : Schedule) (i : ℕ) : List UInt8 :=
  match w.file (w.time i) with
  | .file bytes => bytes
  | _ => []

/-- The size and the type of the version that a request is answered from. -/
structure Seen (w : Schedule) (i size : ℕ) (mime : String) : Prop where
  valid : w.watch.valid i = true ∧ w.watch.late i = false ∧ w.watch.still i = true
  file : w.file (w.time i) = .file (w.content i)
  length : (w.content i).length = size
  mime : Preview.mime ((w.content i).take headerSize) w.extension = mime

end Schedule

/-- A file of this size and type is loaded. -/
def Loaded (full : Bool) (size : ℕ) (mime : String) : Prop :=
  size ≤ 64 * 1024 * 1024 ∧ ((full || isMedia mime) = true → size ≤ limit full mime)

/-- The last chunk that is asked for. -/
def lastChunk (full : Bool) (size : ℕ) (mime : String) : ℕ := (min size (limit full mime) - 1) / 65536

variable {w : Schedule} {full : Bool} {size : ℕ} {mime : String}

/-- What is loaded of a file of this size and type. -/
def loadedData (w : Schedule) (full : Bool) (size : ℕ) (mime : String) : SourceData where
  bytes := Chunks.assemble 65536 w.content (lastChunk full size mime + 1)
  mime := mime
  size := size
  truncated := decide (limit full mime < size)

/-- What is carried to a request. -/
structure Carried (w : Schedule) (full : Bool) (i : ℕ) (st : LoadState) : Prop where
  offset : st.offset = i * 65536
  bytes : st.bytes = Chunks.assemble 65536 w.content i
  more : i ≠ 0 → i * 65536 < min st.size (limit full st.mime)

/-- What is carried behind a chunk. -/
def carry (w : Schedule) (i size : ℕ) (mime : String) : LoadState where
  bytes := Chunks.assemble 65536 w.content (i + 1)
  offset := (i + 1) * 65536
  mime := mime
  size := size

theorem respond_eq {i offset : ℕ} (h : w.Seen i size mime) (hsize : size ≤ 64 * 1024 * 1024)
    (hoffset : offset ≤ size) :
    w.respond i offset = .ok (.sourcePreview
      { data := ((w.content i).drop offset).take 65536
        mimeType := mime
        size := size
        next := offset + min 65536 (size - offset)
        hasMore := decide (offset + min 65536 (size - offset) < size) }) := by
  have hlength := h.length
  have hmime := h.mime
  unfold Schedule.respond preview
  rw [h.file]
  dsimp only
  rw [if_neg (by omega), if_neg (by omega)]
  simp only [List.length_take, List.length_drop, hlength, hmime, chunkSize]

/-- Behind a chunk that is not the last there is more. -/
theorem chunk_follows {i total : ℕ} (h : i * 65536 < total) (hi : i ≠ (total - 1) / 65536) :
    (i + 1) * 65536 < total := by
  have hpos : 0 < 65536 := by omega
  have hle : i ≤ (total - 1) / 65536 := (Nat.le_div_iff_mul_le hpos).2 (by omega)
  have hlt : (i + 1) * 65536 ≤ total - 1 :=
    (Nat.le_div_iff_mul_le hpos).1 (Nat.lt_of_le_of_ne hle hi)
  exact Nat.lt_of_le_of_lt hlt (Nat.sub_lt (by omega) Nat.one_pos)

/-- One request for a file of the size and the type that is carried. -/
theorem loadLoop_step {i : ℕ} {st : LoadState} (fuel : ℕ) (h : w.Seen i size mime)
    (hloaded : Loaded full size mime) (hst : Carried w full i st)
    (hsame : i ≠ 0 → st.size = size ∧ st.mime = mime) :
    loadLoop w.respond w.watch full (fuel + 1) i st =
      if i = lastChunk full size mime then some (.ok (loadedData w full size mime))
      else loadLoop w.respond w.watch full fuel (i + 1) (carry w i size mime) := by
  obtain ⟨hmod, hlow, hhigh⟩ := limit_bounds full mime
  obtain ⟨hmax, hmedia⟩ := hloaded
  have hbefore : i ≠ 0 → i * 65536 < min size (limit full mime) := by
    intro hi
    have := hst.more hi
    rwa [(hsame hi).1, (hsame hi).2] at this
  have hoffset : i * 65536 ≤ size := by
    by_cases hi : i = 0
    · omega
    · have := hbefore hi
      omega
  have hdata : ((w.content i).drop (i * 65536)).take 65536 = Chunks.chunk 65536 (w.content i) i := rfl
  have hlength : (Chunks.chunk 65536 (w.content i) i).length = min 65536 (size - i * 65536) := by
    rw [Chunks.length_chunk, h.length]
  have hchanged : changed st
      { data := Chunks.chunk 65536 (w.content i) i, mimeType := mime, size := size
        next := i * 65536 + min 65536 (size - i * 65536)
        hasMore := decide (i * 65536 + min 65536 (size - i * 65536) < size) } = false := by
    simp only [changed, hst.offset, hlength, Bool.or_eq_false_iff, decide_eq_false_iff_not,
      Bool.and_eq_false_iff, not_not]
    refine ⟨⟨⟨⟨⟨by omega, by simp [maxSafeInteger]; omega⟩, by omega⟩, trivial⟩, ?_⟩, ?_⟩
    · by_cases hmore : i * 65536 + min 65536 (size - i * 65536) < size
      · refine .inr fun hnil => ?_
        rw [hnil] at hlength
        simp at hlength
        omega
      · exact .inl hmore
    · by_cases hi : i = 0
      · exact .inl (by omega)
      · refine .inr ?_
        rw [(hsame hi).1, (hsame hi).2]
        simp
  have hbytes : Chunks.assemble 65536 w.content i ++ Chunks.chunk 65536 (w.content i) i =
      Chunks.assemble 65536 w.content (i + 1) := Chunks.assemble_succ.symm
  obtain ⟨hvalid, hlate, hstill⟩ := h.valid
  rw [loadLoop, hvalid, hlate, hstill, hst.offset, respond_eq h hmax hoffset, hdata]
  simp only [Bool.true_eq_false, Bool.false_eq_true, if_false, hchanged]
  rw [if_neg (fun hc => absurd (hmedia hc.1) (by omega)), if_neg (by omega), hst.bytes, hbytes]
  have hlast : lastChunk full size mime = (min size (limit full mime) - 1) / 65536 := rfl
  by_cases hi : i = lastChunk full size mime
  · rw [if_pos hi]
    have hend : min size (limit full mime) ≤ (i + 1) * 65536 := by omega
    have hnext : i * 65536 + min 65536 (size - i * 65536) = min size (limit full mime) := by
      by_cases hz : i = 0
      · omega
      · have := hbefore hz
        omega
    have hfinal : decide (min size (limit full mime) < size) = false ∨
        limit full mime ≤ min size (limit full mime) := by
      by_cases hle : size ≤ limit full mime
      · exact .inl (decide_eq_false (by omega))
      · exact .inr (by omega)
    have htruncated : decide (min size (limit full mime) < size) = decide (limit full mime < size) :=
      decide_eq_decide.2 (by omega)
    rw [hnext, if_pos hfinal, htruncated, hi]
    rfl
  · have hbelow : i * 65536 < min size (limit full mime) := by
      by_cases hz : i = 0
      · omega
      · exact hbefore hz
    have hnot : (i + 1) * 65536 < min size (limit full mime) := chunk_follows hbelow hi
    have hnext : i * 65536 + min 65536 (size - i * 65536) = (i + 1) * 65536 := by omega
    have hgo : ¬(decide ((i + 1) * 65536 < size) = false ∨ limit full mime ≤ (i + 1) * 65536) := by
      rintro (hc | hc)
      · have := of_decide_eq_false hc
        omega
      · omega
    rw [if_neg hi, hnext, if_neg hgo, carry]

/-- A load that goes on has a file of the size and the type that is carried. -/
theorem loadLoop_seen {d : SourceData} (hd : d.directory = none) {fuel i : ℕ} {st : LoadState}
    (hst : Carried w full i st)
    (h : loadLoop w.respond w.watch full (fuel + 1) i st = some (.ok d)) :
    ∃ size mime, w.Seen i size mime ∧ Loaded full size mime ∧
      (i ≠ 0 → st.size = size ∧ st.mime = mime) := by
  rw [loadLoop] at h
  split at h
  · cases h
  rename_i hvalid
  split at h
  · cases h
  rename_i hlate
  split at h
  · cases h
  rename_i response hresponse
  split at h
  · cases h
  rename_i hstill
  split at h
  · obtain rfl := Except.ok.inj (Option.some.inj h)
    cases hd
  · cases h
  rename_i p
  split at h
  · cases h
  rename_i hchanged
  split at h
  · cases h
  rename_i hsize
  clear h
  rw [Bool.not_eq_true] at hchanged
  unfold Schedule.respond preview at hresponse
  split at hresponse
  · cases hresponse
  · split_ifs at hresponse
    cases hresponse
  · cases hresponse
  rename_i bytes hfile
  split_ifs at hresponse with hmax hoffset
  dsimp only at hresponse
  obtain rfl := SourceResponse.sourcePreview.inj (Except.ok.inj hresponse)
  have hcontent : w.content i = bytes := by rw [Schedule.content, hfile]
  refine ⟨bytes.length, mime (bytes.take headerSize) w.extension, ⟨⟨?_, ?_, ?_⟩, ?_, ?_, ?_⟩,
    ⟨by omega, fun hmedia => ?_⟩, fun hi => ?_⟩
  · simpa using hvalid
  · simpa using hlate
  · simpa using hstill
  · rw [hcontent, hfile]
  · rw [hcontent]
  · rw [hcontent]
  · by_contra hlt
    exact hsize ⟨hmedia, by simpa using hlt⟩
  · have hne : st.offset ≠ 0 := by
      rw [hst.offset]
      omega
    simp only [changed, Bool.or_eq_false_iff, Bool.and_eq_false_iff, decide_eq_false_iff_not] at hchanged
    obtain ⟨hmime, hlen⟩ := hchanged.2.resolve_left (not_not.2 hne)
    exact ⟨(not_not.1 hlen).symm, (not_not.1 hmime).symm⟩

theorem carried_next {i : ℕ} {st : LoadState} (hst : Carried w full i st)
    (hsame : i ≠ 0 → st.size = size ∧ st.mime = mime) (hi : i ≠ lastChunk full size mime) :
    Carried w full (i + 1) (carry w i size mime) where
  offset := rfl
  bytes := rfl
  more := fun _ => by
    refine chunk_follows ?_ hi
    by_cases hz : i = 0
    · rw [hz, Nat.zero_mul]
      refine Nat.pos_of_ne_zero fun hzero => hi ?_
      have htotal : min size (limit full mime) = 0 := hzero
      rw [hz, lastChunk, htotal]
    · have := hst.more hz
      rwa [(hsame hz).1, (hsame hz).2] at this

/-- What is loaded has one size and one type in all of its requests. -/
theorem loadLoop_ok {d : SourceData} (hd : d.directory = none) : ∀ (fuel : ℕ) {i : ℕ} {st : LoadState},
    Carried w full i st → loadLoop w.respond w.watch full fuel i st = some (.ok d) →
      ∃ size mime, Loaded full size mime ∧ i ≤ lastChunk full size mime ∧
        (∀ j, i ≤ j → j ≤ lastChunk full size mime → w.Seen j size mime) ∧
        (i ≠ 0 → st.size = size ∧ st.mime = mime) ∧ d = loadedData w full size mime
  | 0, _, _, _, h => by cases h
  | fuel + 1, i, st, hst, h => by
    obtain ⟨size, mime, hseen, hloaded, hsame⟩ := loadLoop_seen hd hst h
    rw [loadLoop_step fuel hseen hloaded hst hsame] at h
    split_ifs at h with hlast
    · obtain rfl := Except.ok.inj (Option.some.inj h)
      refine ⟨size, mime, hloaded, Nat.le_of_eq hlast, fun j hij hj => ?_, hsame, rfl⟩
      obtain rfl : j = i := Nat.le_antisymm (hlast ▸ hj) hij
      exact hseen
    · obtain ⟨size', mime', hloaded', hle, hall, hcarry, rfl⟩ :=
        loadLoop_ok hd fuel (carried_next hst hsame hlast) h
      obtain ⟨hsize, hmime⟩ := hcarry (Nat.succ_ne_zero i)
      have hsize' : size = size' := hsize
      have hmime' : mime = mime' := hmime
      subst hsize' hmime'
      refine ⟨size, mime, hloaded', Nat.le_of_succ_le hle, fun j hij hj => ?_, hsame, rfl⟩
      rcases Nat.lt_or_eq_of_le hij with hlt | rfl
      · exact hall j hlt hj
      · exact hseen

/-- A file that keeps its size and its type is loaded. -/
theorem loadLoop_kept (hloaded : Loaded full size mime) : ∀ (fuel : ℕ) {i : ℕ} {st : LoadState},
    Carried w full i st → (i ≠ 0 → st.size = size ∧ st.mime = mime) → i ≤ lastChunk full size mime →
      lastChunk full size mime < fuel + i →
      (∀ j, i ≤ j → j ≤ lastChunk full size mime → w.Seen j size mime) →
      loadLoop w.respond w.watch full fuel i st = some (.ok (loadedData w full size mime))
  | 0, i, _, _, _, hle, hfuel, _ => by omega
  | fuel + 1, i, st, hst, hsame, hle, hfuel, hall => by
    rw [loadLoop_step fuel (hall i (Nat.le_refl i) hle) hloaded hst hsame]
    split_ifs with hlast
    · rfl
    · exact loadLoop_kept hloaded fuel (carried_next hst hsame hlast) (fun _ => ⟨rfl, rfl⟩) (by omega)
        (by omega) fun j hij hj => hall j (Nat.le_of_succ_le hij) hj

theorem carried_zero : Carried w full 0 {} := ⟨rfl, rfl, fun h => absurd rfl h⟩

theorem lastChunk_lt : lastChunk full size mime < loadFuel := by
  have := limit_bounds full mime
  have hle : lastChunk full size mime ≤ min size (limit full mime) - 1 := Nat.div_le_self _ _
  rw [loadFuel]
  omega

/-- The last chunk begins within what is loaded, and ends it. -/
theorem lastChunk_spec (full : Bool) (size : ℕ) (mime : String) :
    lastChunk full size mime * 65536 ≤ min size (limit full mime) ∧
      min size (limit full mime) ≤ (lastChunk full size mime + 1) * 65536 := by
  generalize htotal : min size (limit full mime) = total
  have hlast : lastChunk full size mime = (total - 1) / 65536 := by rw [lastChunk, htotal]
  have hlow := Nat.div_mul_le_self (total - 1) 65536
  have hhigh := Nat.lt_div_mul_add (a := total - 1) (b := 65536) (by omega)
  rw [← hlast] at hlow hhigh
  omega

/-- Of a file that is too long the limit is loaded, which is a number of whole chunks. -/
theorem lastChunk_limit (h : limit full mime < size) :
    (lastChunk full size mime + 1) * 65536 = limit full mime := by
  obtain ⟨hmod, hlow, -⟩ := limit_bounds full mime
  obtain ⟨m, hm⟩ := Nat.dvd_of_mod_eq_zero hmod
  have hlast : lastChunk full size mime = (65536 * m - 1) / 65536 := by
    rw [lastChunk, Nat.min_eq_right h.le, hm]
  obtain ⟨k, rfl⟩ : ∃ k, m = k + 1 := ⟨m - 1, by omega⟩
  have htotal : 65536 * (k + 1) - 1 = 65536 * k + 65535 := by omega
  rw [hlast, htotal, Nat.mul_add_div (by omega), Nat.div_eq_of_lt (by omega), Nat.add_zero, hm,
    Nat.mul_comm]

theorem whole_chunks (hall : ∀ i ≤ lastChunk full size mime, w.Seen i size mime) :
    ∀ i < lastChunk full size mime, (i + 1) * 65536 ≤ (w.content i).length := by
  intro i hi
  obtain ⟨hle, -⟩ := lastChunk_spec full size mime
  rw [(hall i hi.le).length]
  exact (Nat.mul_le_mul_right _ hi).trans (hle.trans (Nat.min_le_left _ _))

theorem length_loadedData (hall : ∀ i ≤ lastChunk full size mime, w.Seen i size mime) :
    (loadedData w full size mime).bytes.length = min size (limit full mime) := by
  obtain ⟨hlow, hhigh⟩ := lastChunk_spec full size mime
  have hfront := Chunks.length_assemble (whole_chunks hall)
  have hchunk := @Chunks.length_chunk _ 65536 (w.content (lastChunk full size mime))
    (lastChunk full size mime)
  rw [(hall _ (Nat.le_refl _)).length] at hchunk
  rw [loadedData, Chunks.assemble_succ, List.length_append, hfront, hchunk]
  rcases Nat.lt_or_ge (limit full mime) size with hlt | hle
  · have := lastChunk_limit hlt
    omega
  · omega

/-- What is loaded of a file is one of the versions that it had from the first request to the last,
or its front where it is cut. -/
def OneVersion (w : Schedule) (full : Bool) : Prop :=
  ∀ d, loadSource w.respond w.watch full = some (.ok d) → d.directory = none →
    ∃ t bytes, w.time 0 ≤ t ∧ t ≤ w.time ((d.bytes.length - 1) / 65536) ∧ w.file t = .file bytes ∧
      d.bytes = bytes.take d.bytes.length ∧ (d.truncated = false → d.bytes = bytes)

/-- Where the file has one size and one type in all requests of a load, one of its versions from the
first request to the last has every chunk as the version that the chunk was read from. -/
def Unmixed (w : Schedule) (full : Bool) : Prop :=
  ∀ size mime, Loaded full size mime → (∀ i ≤ lastChunk full size mime, w.Seen i size mime) →
    ∃ t bytes, w.time 0 ≤ t ∧ t ≤ w.time (lastChunk full size mime) ∧ w.file t = .file bytes ∧
      (size ≤ limit full mime → bytes.length = size) ∧
      ∀ i ≤ lastChunk full size mime,
        Chunks.chunk 65536 bytes i = Chunks.chunk 65536 (w.content i) i

theorem lastChunk_length (hall : ∀ i ≤ lastChunk full size mime, w.Seen i size mime) :
    ((loadedData w full size mime).bytes.length - 1) / 65536 = lastChunk full size mime := by
  rw [length_loadedData hall, lastChunk]

theorem unmixed_of_oneVersion (h : OneVersion w full) : Unmixed w full := by
  intro size mime hloaded hall
  have hload := loadLoop_kept hloaded loadFuel carried_zero (fun hz => absurd rfl hz) (Nat.zero_le _)
    (by rw [Nat.add_zero]; exact lastChunk_lt) fun j _ hj => hall j hj
  obtain ⟨t, bytes, hfrom, hto, hfile, hfront, hwhole⟩ := h _ hload rfl
  rw [lastChunk_length hall] at hto
  have hlength := length_loadedData hall
  have hbytes : (loadedData w full size mime).bytes =
      Chunks.assemble 65536 w.content (lastChunk full size mime + 1) := rfl
  have hchunks := Chunks.chunk_assemble (whole_chunks hall)
  rcases Nat.lt_or_ge (limit full mime) size with hlt | hle
  · refine ⟨t, bytes, hfrom, hto, hfile, fun hle => absurd hle (Nat.not_le.2 hlt), fun i hi => ?_⟩
    have htotal : (i + 1) * 65536 ≤ (loadedData w full size mime).bytes.length := by
      rw [hlength, Nat.min_eq_right hlt.le, ← lastChunk_limit hlt]
      exact Nat.mul_le_mul_right _ (Nat.succ_le_succ hi)
    rw [← hchunks i hi, ← hbytes, hfront, Chunks.chunk_take htotal]
  · have hsame := hwhole (decide_eq_false (Nat.not_lt.2 hle))
    refine ⟨t, bytes, hfrom, hto, hfile, fun _ => ?_, fun i hi => ?_⟩
    · rw [← hsame, hlength, Nat.min_eq_left hle]
    · rw [← hchunks i hi, ← hbytes, hsame]

theorem oneVersion_of_unmixed (h : Unmixed w full) : OneVersion w full := by
  intro d hload hd
  obtain ⟨size, mime, hloaded, -, hall, -, rfl⟩ := loadLoop_ok hd loadFuel carried_zero hload
  have hseen : ∀ i ≤ lastChunk full size mime, w.Seen i size mime := fun i hi => hall i (Nat.zero_le i) hi
  obtain ⟨t, bytes, hfrom, hto, hfile, hsize, hchunks⟩ := h size mime hloaded hseen
  have hlength := length_loadedData hseen
  have hbytes : (loadedData w full size mime).bytes =
      bytes.take ((lastChunk full size mime + 1) * 65536) := by
    rw [loadedData, ← Chunks.assemble_const]
    exact Chunks.assemble_congr fun i hi => (hchunks i (Nat.le_of_lt_succ hi)).symm
  refine ⟨t, bytes, hfrom, ?_, hfile, ?_, fun hwhole => ?_⟩
  · rw [lastChunk_length hseen]
    exact hto
  · rw [hbytes, List.length_take, List.take_eq_take_iff, Nat.min_assoc, Nat.min_self]
  · have hle : size ≤ limit full mime := Nat.not_lt.1 (of_decide_eq_false hwhole)
    have hmore := (lastChunk_spec full size mime).2
    rw [Nat.min_eq_left hle] at hmore
    rw [hbytes, List.take_of_length_le (by rw [hsize hle]; exact hmore)]

/-- A load ends, and shows one version, if and only if no version that was read in part is written
over by one of the same size and type, unless the chunks that were read are those of one version. -/
theorem oneVersion_iff (w : Schedule) (full : Bool) :
    (loadSource w.respond w.watch full ≠ none ∧ OneVersion w full) ↔ Unmixed w full :=
  ⟨fun h => unmixed_of_oneVersion h.2,
    fun h => ⟨loadSource_ends w.respond w.watch full, oneVersion_of_unmixed h⟩⟩

/-- The first bytes of an image, and one byte all over. -/
def filled (b : UInt8) : List UInt8 :=
  [0x89, 80, 78, 71, 13, 10, 26, 10] ++ List.replicate 65529 b

theorem length_filled (b : UInt8) : (filled b).length = 65537 := by
  rw [filled, List.length_append, List.length_replicate]
  rfl

theorem getElem?_filled (b : UInt8) {i : ℕ} (h : 8 ≤ i) (hlt : i < 65537) : (filled b)[i]? = some b := by
  have hhead : ([0x89, 80, 78, 71, 13, 10, 26, 10] : List UInt8).length = 8 := rfl
  rw [filled, List.getElem?_append_right (by rw [hhead]; exact h), hhead,
    List.getElem?_replicate_of_lt (by omega)]

/-- An image that is written anew with the same size behind the first request. -/
def rewritten : Schedule where
  file t := .file (filled (if t = 0 then 97 else 98))
  time i := i
  mono := monotone_id
  extension := some "png"
  watch := ⟨fun _ => true, fun _ => false, fun _ => true⟩

theorem rewritten_seen (i : ℕ) : rewritten.Seen i 65537 "image/png" where
  valid := ⟨rfl, rfl, rfl⟩
  file := rfl
  length := length_filled _
  mime := rfl

/-- The first chunk is of the one version and the last byte of the other. -/
theorem not_oneVersion_rewritten :
    ¬(loadSource rewritten.respond rewritten.watch false ≠ none ∧ OneVersion rewritten false) := by
  rintro ⟨-, h⟩
  have hlast : lastChunk false 65537 "image/png" = 1 := by decide +kernel
  have hloaded : Loaded false 65537 "image/png" := by
    have hlimit : limit false "image/png" = 16 * 1024 * 1024 := by decide +kernel
    exact ⟨by omega, fun _ => by omega⟩
  obtain ⟨t, bytes, -, ht, hfile, -, hchunks⟩ :=
    unmixed_of_oneVersion h 65537 "image/png" hloaded fun i _ => rewritten_seen i
  rw [hlast] at ht hchunks
  obtain rfl : filled (if t = 0 then 97 else 98) = bytes := Preview.Node.file.inj hfile
  have hfirst := congrArg (·[8]?) (hchunks 0 (Nat.zero_le 1))
  have hsecond := congrArg (·[0]?) (hchunks 1 (Nat.le_refl 1))
  rw [Chunks.getElem?_chunk (by omega), Chunks.getElem?_chunk (by omega),
    getElem?_filled _ (by omega) (by omega)] at hfirst hsecond
  have hold : (rewritten.content 0)[0 * 65536 + 8]? = some 97 := getElem?_filled 97 (by omega) (by omega)
  have hnew : (rewritten.content 1)[1 * 65536 + 0]? = some 98 := getElem?_filled 98 (by omega) (by omega)
  rw [hold] at hfirst
  rw [hnew] at hsecond
  by_cases hz : t = 0
  · rw [if_pos hz] at hsecond
    exact absurd hsecond (by decide)
  · rw [if_neg hz] at hfirst
    exact absurd hfirst (by decide)

end SourceLoader

end LatteWork
