import LatteWork.Agents.ChildTranscript
import LatteWork.Lib.Ring

/-!
# Reports in the snapshot of a child

A confirmed report stands behind its result in pieces that add up to its text, and doing this again
changes nothing (`reports_once`): what was put in is found again, and what was dropped from the front
confirmed nothing that is left.
-/

namespace LatteWork

open Assoc

/-! ## The pieces of a report -/

theorem reportPieces_flatten : ∀ {rounds : ℕ} {rest : List Char}, rest.length ≤ rounds →
    (reportPieces rounds rest).flatten = rest
  | 0, [], _ => rfl
  | _ + 1, [], _ => rfl
  | rounds + 1, c :: rest, h => by
    have hne : frontBytes (4 * 1024) (c :: rest) ≠ [] :=
      frontBytes_ne_nil (by decide) (List.cons_ne_nil _ _)
    have hpos := List.length_pos_of_ne_nil hne
    have hrest : ((c :: rest).drop (frontBytes (4 * 1024) (c :: rest)).length).length ≤ rounds := by
      rw [List.length_drop]
      omega
    rw [reportPieces, List.flatten_cons, reportPieces_flatten hrest]
    · exact List.prefix_iff_eq_append.1 (frontBytes_front (4 * 1024) (c :: rest))
    · simp

theorem reportPieces_bounds : ∀ {rounds : ℕ} {rest : List Char}, ∀ piece ∈ reportPieces rounds rest,
    piece ≠ [] ∧ String.utf8Len piece ≤ 4 * 1024
  | 0, _, piece, h => by simp [reportPieces] at h
  | _ + 1, [], piece, h => by simp [reportPieces] at h
  | rounds + 1, c :: rest, piece, h => by
    rw [reportPieces, List.mem_cons] at h
    · rcases h with rfl | h
      · exact ⟨frontBytes_ne_nil (by decide) (List.cons_ne_nil _ _), utf8Len_frontBytes_le _ _⟩
      · exact reportPieces_bounds piece h
    · simp

/-- Every piece but the last is nearly full. -/
theorem reportPieces_length : ∀ {rounds : ℕ} {rest : List Char},
    4093 * (reportPieces rounds rest).length ≤ String.utf8Len rest + 4093
  | 0, rest => by simp [reportPieces]
  | _ + 1, [] => by simp [reportPieces]
  | rounds + 1, c :: rest => by
    rw [reportPieces, List.length_cons]
    · by_cases hall : frontBytes (4 * 1024) (c :: rest) = c :: rest
      · rw [hall, List.drop_length]
        have hnil : reportPieces rounds [] = [] := by cases rounds <;> rfl
        simp [hnil]
      · have hfull := lt_utf8Len_frontBytes hall
        have hrest := @reportPieces_length rounds
          ((c :: rest).drop (frontBytes (4 * 1024) (c :: rest)).length)
        have hsplit : String.utf8Len (c :: rest) = String.utf8Len (frontBytes (4 * 1024) (c :: rest)) +
            String.utf8Len ((c :: rest).drop (frontBytes (4 * 1024) (c :: rest)).length) := by
          rw [← String.utf8Len_append, List.prefix_iff_eq_append.1 (frontBytes_front _ _)]
        omega
    · simp

theorem reportPieces_text (text : String) :
    (reportPieces text.length text.toList).flatten = text.toList :=
  reportPieces_flatten (le_of_eq String.length_toList)

/-- What is shown of a report: all of it, or its front and the mark. -/
structure ShownReport (text shown : String) (cut : Bool) : Prop where
  whole : text.utf8ByteSize ≤ 128 * 1024 → shown = text ∧ cut = false
  cut : 128 * 1024 < text.utf8ByteSize → cut = true ∧ ∃ front, front <+: text.toList ∧
    shown = String.ofList front ++ reportCutMark ∧
      String.utf8Len front ≤ 128 * 1024 ∧ 128 * 1024 < String.utf8Len front + 4

theorem clipReport_shown (text : String) :
    ShownReport text (clipReport text).1 (clipReport text).2 := by
  unfold clipReport
  split
  · rename_i h
    refine ⟨fun hle => absurd h (by omega), fun _ => ⟨rfl, _, frontBytes_front _ _, rfl,
      utf8Len_frontBytes_le _ _, lt_utf8Len_frontBytes fun he => ?_⟩⟩
    have hlen := utf8Len_frontBytes_le (128 * 1024) text.toList
    rw [he, String.utf8Len_toList] at hlen
    omega
  · rename_i h
    exact ⟨fun _ => ⟨rfl, rfl⟩, fun hlt => absurd hlt h⟩

/-- A report has fewer than sixty-four pieces: their numbers stay below that of the next block. -/
theorem clipReport_pieces (text : String) :
    (reportPieces (clipReport text).1.length (clipReport text).1.toList).length < 64 := by
  have hpieces := @reportPieces_length (clipReport text).1.length (clipReport text).1.toList
  have hshown := clipReport_shown text
  have hbytes : String.utf8Len (clipReport text).1.toList ≤ 128 * 1024 + 25 := by
    rw [String.utf8Len_toList]
    by_cases h : text.utf8ByteSize ≤ 128 * 1024
    · rw [(hshown.whole h).1]
      omega
    · obtain ⟨_, front, _, hfront, hlen, _⟩ := hshown.cut (by omega)
      have hmark : reportCutMark.utf8ByteSize = 25 := rfl
      rw [hfront, String.utf8ByteSize_append, hmark, ← String.utf8Len_toList, String.toList_ofList]
      omega
  omega

/-- The text an event says. -/
def said : EventKind → Option String
  | .text text => some text
  | _ => none

/-- The pieces of a report behind the block that confirms it. -/
structure InPieces (shown : String) (seq : ℚ) (reports : List SnapshotEvent) : Prop where
  texts : ∀ e ∈ reports, ∃ piece, e.event = .text piece ∧ piece ≠ "" ∧ piece.utf8ByteSize ≤ 4 * 1024
  joined : String.join (reports.filterMap fun e => said e.event) = shown
  /-- The numbers go up, and stay below that of the next block, while a double has room for them. -/
  numbers : ∀ m : ℕ, seq = m / 64 → m + 64 ≤ 2 ^ 53 →
    (reports.map (·.seq)).Pairwise (· < ·) ∧ ∀ e ∈ reports, seq < e.seq ∧ e.seq < seq + 1

theorem join_ofList : ∀ pieces : List (List Char),
    String.join (pieces.map String.ofList) = String.ofList pieces.flatten
  | [] => rfl
  | piece :: pieces => by
    rw [List.map_cons, String.join_cons, join_ofList pieces, List.flatten_cons, String.ofList_append]

theorem reportEvents_pieces (text : String) (seq : ℚ) (sessionId : String) (atMs : ℕ) :
    InPieces (clipReport text).1 seq (reportEvents text seq sessionId atMs).1 := by
  unfold reportEvents
  dsimp only
  generalize hshown : (clipReport text).1 = shown
  have hfew : (reportPieces shown.length shown.toList).length < 64 := hshown ▸ clipReport_pieces text
  have hbounds := @reportPieces_bounds shown.length shown.toList
  have hflatten := reportPieces_text shown
  generalize reportPieces shown.length shown.toList = pieces at hfew hbounds hflatten
  refine ⟨fun e he => ?_, ?_, fun m hm hroom => ?_⟩
  · obtain ⟨⟨piece, n⟩, hmem, rfl⟩ := List.mem_map.1 he
    obtain ⟨hne, hbytes⟩ := hbounds piece (List.fst_mem_of_mem_zipIdx hmem)
    refine ⟨_, rfl, ?_, ?_⟩
    · rwa [← String.ofList_nil, Ne, String.ofList_inj]
    · rwa [← String.utf8Len_toList, String.toList_ofList]
  · rw [List.filterMap_map]
    have hsaid (f : List Char × ℕ → Option String) (hf : f = fun p => some (String.ofList p.1)) :
        pieces.zipIdx.filterMap f = pieces.map String.ofList := by
      conv_rhs => rw [← List.zipIdx_map_fst 0 pieces, List.map_map, ← List.filterMap_eq_map]
      rw [hf]
      rfl
    rw [hsaid, join_ofList, hflatten, String.ofList_toList]
    rfl
  -- the numbers are whole sixty-fourths, and none is rounded
  · have hnumber : ∀ n, n < pieces.length →
        F64.add seq (((n + 1 : ℕ) : ℚ) / (64 : ℕ)) = ((m + (n + 1) : ℕ) : ℚ) / (64 : ℕ) := by
      intro n hn
      have hseq : seq = (m : ℚ) / (64 : ℕ) := by exact_mod_cast hm
      rw [hseq]
      exact F64.add_parts (by decide) (by omega)
    constructor
    · rw [List.pairwise_iff_getElem]
      intro i j hi hj hij
      simp only [List.length_map, List.length_zipIdx] at hi hj
      simp only [List.getElem_map, List.getElem_zipIdx, Nat.zero_add]
      rw [hnumber i hi, hnumber j hj]
      have : ((m + (i + 1) : ℕ) : ℚ) < ((m + (j + 1) : ℕ) : ℚ) := by
        have : m + (i + 1) < m + (j + 1) := by omega
        exact_mod_cast this
      exact div_lt_div_of_pos_right this (by norm_num)
    · intro e he
      obtain ⟨⟨piece, n⟩, hmem, rfl⟩ := List.mem_map.1 he
      have hn : n < pieces.length := by
        have := List.snd_lt_of_mem_zipIdx hmem
        omega
      dsimp only
      rw [hnumber n hn, hm]
      constructor
      · rw [div_lt_div_iff₀ (by norm_num) (by norm_num)]
        push_cast
        linarith
      · rw [div_add_one (by norm_num), div_lt_div_iff₀ (by norm_num) (by norm_num)]
        have : ((m + (n + 1) : ℕ) : ℚ) < m + 64 := by
          have : m + (n + 1) < m + 64 := by omega
          exact_mod_cast this
        push_cast at this ⊢
        linarith

/-! ## The confirmed reports -/

/-- What an event says of the handback of an id: its text, or that its result is there. -/
def wordOn (id : String) : EventKind → Option (Option String)
  | .tool i name input =>
    if i = id ∧ name = "SubagentHandback" then (input.index "message").str?.map some else none
  | .toolResult i _ _ => if i = id then some none else none
  | _ => none

/-- The handback of an id that waits for its result behind some events. -/
def awaited (before : List SnapshotEvent) (id : String) : Option String :=
  before.foldl (fun waiting e => (wordOn id e.event).getD waiting) none

section

variable (parse : String → Option Json)

/-- The report that an event confirms. -/
def confirmed (before : List SnapshotEvent) (e : SnapshotEvent) : Option String :=
  match e.event with
  | .toolResult id content isError =>
    if handbackDelivered parse content isError then awaited before id else none
  | _ => none

/-- The pieces that are put behind an event: those of the report it confirms, unless the events that
follow say exactly them. -/
def inserted (before : List SnapshotEvent) (e : SnapshotEvent) (following : List SnapshotEvent) :
    List SnapshotEvent :=
  match confirmed parse before e with
  | some text =>
    let reports := (reportEvents text e.seq e.sessionId e.atMs).1
    if reports.map (said ·.event) <+: following.map (said ·.event) then [] else reports
  | none => []

/-- Every event of a snapshot with what is put behind it. -/
def placeReports : List SnapshotEvent → List SnapshotEvent → List SnapshotEvent
  | _, [] => []
  | before, e :: following =>
    e :: (inserted parse before e following ++ placeReports (before ++ [e]) following)

/-- Some confirmed report is cut. -/
def cutIn : List SnapshotEvent → List SnapshotEvent → Bool
  | _, [] => false
  | before, e :: following =>
    ((confirmed parse before e).any fun text => (clipReport text).2) || cutIn (before ++ [e]) following

end

theorem awaited_concat (before : List SnapshotEvent) (e : SnapshotEvent) (id : String) :
    awaited (before ++ [e]) id = (wordOn id e.event).getD (awaited before id) := by
  simp [awaited]

variable {parse : String → Option Json} {size : SnapshotEvent → ℕ}
  {before : List SnapshotEvent} {pending : List (String × String)}

/-- The map of the loop holds what is awaited. -/
theorem confirms_eq (e : SnapshotEvent) (h : ∀ id, pending.lookup id = awaited before id) :
    (confirms parse pending e.event).1 = confirmed parse before e ∧
      ∀ id, (confirms parse pending e.event).2.lookup id = awaited (before ++ [e]) id := by
  simp only [awaited_concat]
  unfold confirmed
  cases e.event with
  | tool i name input =>
    by_cases hname : name = "SubagentHandback"
    · rcases hmessage : (input.index "message").str? with _ | text
      · refine ⟨by simp [confirms, hname, hmessage], fun id => ?_⟩
        simp [confirms, wordOn, hname, hmessage, h]
      · refine ⟨by simp [confirms, hname, hmessage], fun id => ?_⟩
        by_cases hid : id = i
        · simp [confirms, wordOn, hname, hmessage, lookup_put, hid]
        · simp [confirms, wordOn, hname, hmessage, lookup_put, hid, Ne.symm hid, h]
    · exact ⟨by simp [confirms, hname], fun id => by simp [confirms, wordOn, hname, h]⟩
  | toolResult i content isError =>
    refine ⟨by simp [confirms, h], fun id => ?_⟩
    by_cases hid : id = i
    · simp [confirms, wordOn, lookup_drop, hid]
    · simp [confirms, wordOn, lookup_drop, hid, Ne.symm hid, h]
  | _ => exact ⟨rfl, h⟩

theorem sameText_iff {a b : EventKind} {text : String} (hb : said b = some text) :
    sameText a b = true ↔ said a = said b := by
  cases b with
  | text t =>
    cases a with
    | text t' => simp [sameText, said]
    | _ => simp [sameText, said]
  | _ => cases hb

/-- The test of the loop, for the pieces of a report. -/
theorem alreadyPresent_iff {following reports : List SnapshotEvent}
    (h : ∀ e ∈ reports, ∃ text, said e.event = some text) :
    alreadyPresent following reports = true ↔
      reports.map (said ·.event) <+: following.map (said ·.event) := by
  induction reports generalizing following with
  | nil => simp [alreadyPresent]
  | cons r reports ih =>
    cases following with
    | nil => simp [alreadyPresent]
    | cons f following =>
      obtain ⟨text, htext⟩ := h r List.mem_cons_self
      have hrest := @ih following fun e he => h e (List.mem_cons_of_mem r he)
      have hcons : alreadyPresent (f :: following) (r :: reports) =
          (sameText f.event r.event && alreadyPresent following reports) := by
        simp only [alreadyPresent, List.length_cons, List.zip_cons_cons, List.all_cons,
          Nat.add_le_add_iff_right]
        exact Bool.and_left_comm _ _ _
      rw [hcons, Bool.and_eq_true, sameText_iff htext, hrest, List.map_cons, List.map_cons,
        List.cons_prefix_cons]
      exact and_congr_left' eq_comm

theorem InPieces.said {shown : String} {seq : ℚ} {reports : List SnapshotEvent}
    (h : InPieces shown seq reports) : ∀ e ∈ reports, ∃ text, said e.event = some text := by
  intro e he
  obtain ⟨piece, hpiece, _⟩ := h.texts e he
  exact ⟨piece, by rw [hpiece]; rfl⟩

/-- What the loop adds for an event. -/
theorem additions_eq (e : SnapshotEvent) (following : List SnapshotEvent) :
    additions e following (confirmed parse before e) =
      (e :: inserted parse before e following,
        (confirmed parse before e).any fun text => (clipReport text).2) := by
  unfold inserted
  rcases confirmed parse before e with _ | text
  · rfl
  have hpresent := @alreadyPresent_iff following _
    (reportEvents_pieces text e.seq e.sessionId e.atMs).said
  unfold additions
  dsimp only
  by_cases hthere : alreadyPresent following (reportEvents text e.seq e.sessionId e.atMs).1 = true
  · rw [if_pos hthere, if_pos (hpresent.1 hthere)]
    rfl
  · rw [if_neg hthere, if_neg fun hp => hthere (hpresent.2 hp)]
    rfl

/-! ## The bounds -/

/-- The bounds of a snapshot. -/
def Fits (size : SnapshotEvent → ℕ) (l : List SnapshotEvent) : Prop :=
  l.length ≤ 500 ∧ (l.map size).sum ≤ 256 * 1024

instance : DecidablePred (Fits size) := fun _ => inferInstanceAs (Decidable (_ ∧ _))

theorem fits_of_append (l more : List SnapshotEvent) (h : Fits size (l ++ more)) : Fits size l := by
  obtain ⟨hlength, hbytes⟩ := h
  rw [List.length_append] at hlength
  rw [List.map_append, List.sum_append] at hbytes
  exact ⟨by omega, by omega⟩

/-- The events with their sizes, as the queue holds them. -/
def sized (size : SnapshotEvent → ℕ) (l : List SnapshotEvent) : List (SnapshotEvent × ℕ) :=
  l.map fun e => (e, size e)

theorem trimFront_eq (l : List SnapshotEvent) (truncated : Bool) :
    trimFront (sized size l) (l.map size).sum truncated =
      (sized size (Ring.lastFit (Fits size) l), ((Ring.lastFit (Fits size) l).map size).sum,
        truncated || decide ((Ring.lastFit (Fits size) l).length < l.length)) := by
  induction l generalizing truncated with
  | nil => simp [trimFront, sized, Ring.lastFit]
  | cons e l ih =>
    have hcond : (500 < (sized size (e :: l)).length ∨ 256 * 1024 < ((e :: l).map size).sum) ↔
        ¬Fits size (e :: l) := by
      simp only [Fits, sized, List.length_map, not_and_or, not_le]
    have hsized : sized size (e :: l) = (e, size e) :: sized size l := rfl
    rw [hsized] at hcond ⊢
    rw [trimFront]
    by_cases hfits : Fits size (e :: l)
    · rw [if_neg fun h => hcond.1 h hfits, Ring.lastFit_eq_self hfits]
      simp [hsized]
    · have hbytes : ((e :: l).map size).sum - size e = (l.map size).sum := by
        rw [List.map_cons, List.sum_cons, Nat.add_sub_cancel_left]
      have hshort := (@Ring.lastFit_suffix _ (Fits size) _ l).length_le
      rw [if_pos (hcond.2 hfits), hbytes, ih, Ring.lastFit, if_neg hfits, Bool.true_or,
        decide_eq_true (by rw [List.length_cons]; omega), Bool.or_true]

/-- What the loop holds behind some events: the end, within the bounds, of what is written so far. -/
structure Loop (size : SnapshotEvent → ℕ) (s : Normalizing) (before written : List SnapshotEvent)
    (truncated : Bool) : Prop where
  pending : ∀ id, s.pending.lookup id = awaited before id
  events : s.events = sized size (Ring.lastFit (Fits size) written)
  bytes : s.bytes = ((Ring.lastFit (Fits size) written).map size).sum
  truncated : s.truncated =
    (truncated || decide ((Ring.lastFit (Fits size) written).length < written.length))

theorem Loop.add {s : Normalizing} {written : List SnapshotEvent} {truncated : Bool}
    (h : Loop size s before written truncated) (e : SnapshotEvent) (following : List SnapshotEvent) :
    Loop size (s.add parse size e following) (before ++ [e])
      (written ++ e :: inserted parse before e following)
      (truncated || (confirmed parse before e).any fun text => (clipReport text).2) := by
  obtain ⟨hreport, hpending⟩ := @confirms_eq parse before s.pending e h.pending
  have hconfirms : confirms parse s.pending e.event =
      (confirmed parse before e, (confirms parse s.pending e.event).2) := Prod.ext hreport rfl
  generalize (confirms parse s.pending e.event).2 = pending' at hconfirms hpending
  have hadditions := @additions_eq parse before e following
  generalize inserted parse before e following = reports at hadditions ⊢
  generalize (confirmed parse before e).any (fun text => (clipReport text).2) = cut at hadditions ⊢
  have hevents : s.events ++ sized size (e :: reports) =
      sized size (Ring.lastFit (Fits size) written ++ e :: reports) := by
    rw [h.events, sized, sized, sized, List.map_append]
  have hbytes : s.bytes + ((e :: reports).map size).sum =
      ((Ring.lastFit (Fits size) written ++ e :: reports).map size).sum := by
    rw [h.bytes, List.map_append, List.sum_append]
  have htrim := @trimFront_eq size (Ring.lastFit (Fits size) written ++ e :: reports) (s.truncated || cut)
  rw [Ring.lastFit_append fits_of_append, ← hevents, ← hbytes] at htrim
  -- what is dropped now was not dropped before
  have hflag : (s.truncated || cut ||
      decide ((Ring.lastFit (Fits size) (written ++ e :: reports)).length <
        (Ring.lastFit (Fits size) written ++ e :: reports).length)) =
      (truncated || cut || decide ((Ring.lastFit (Fits size) (written ++ e :: reports)).length <
        (written ++ e :: reports).length)) := by
    have hold := (@Ring.lastFit_suffix _ (Fits size) _ written).length_le
    have hnew := (@Ring.lastFit_suffix _ (Fits size) _
      (Ring.lastFit (Fits size) written ++ e :: reports)).length_le
    rw [Ring.lastFit_append fits_of_append] at hnew
    rw [List.length_append] at hnew
    have hdropped : ((Ring.lastFit (Fits size) (written ++ e :: reports)).length <
          written.length + (e :: reports).length) ↔
        (Ring.lastFit (Fits size) written).length < written.length ∨
          (Ring.lastFit (Fits size) (written ++ e :: reports)).length <
            (Ring.lastFit (Fits size) written).length + (e :: reports).length := by
      omega
    rw [h.truncated, Bool.eq_iff_iff]
    simp only [Bool.or_eq_true, decide_eq_true_eq, List.length_append, hdropped]
    tauto
  rw [hflag] at htrim
  have hadded : s.add parse size e following =
      { pending := pending'
        events := sized size (Ring.lastFit (Fits size) (written ++ e :: reports))
        bytes := ((Ring.lastFit (Fits size) (written ++ e :: reports)).map size).sum
        truncated := truncated || cut || decide ((Ring.lastFit (Fits size)
          (written ++ e :: reports)).length < (written ++ e :: reports).length) } := by
    unfold Normalizing.add
    rw [hconfirms]
    dsimp only
    rw [hadditions]
    dsimp only
    unfold sized at htrim
    rw [htrim]
    rfl
  rw [hadded]
  exact ⟨hpending, rfl, rfl, rfl⟩

theorem Loop.addAll {s : Normalizing} {written : List SnapshotEvent} {truncated : Bool}
    {following : List SnapshotEvent} (h : Loop size s before written truncated) :
    Loop size (s.addAll parse size following) (before ++ following)
      (written ++ placeReports parse before following) (truncated || cutIn parse before following) := by
  induction following generalizing s before written truncated with
  | nil => simpa [Normalizing.addAll, placeReports, cutIn] using h
  | cons e following ih =>
    have hnext := ih (@Loop.add parse _ _ _ _ _ h e following)
    rw [List.append_assoc, List.append_assoc, Bool.or_assoc] at hnext
    exact hnext

/-- The snapshot is the end, within the bounds, of its events with their reports. -/
theorem normalize_eq (snapshot : ChildTranscript) :
    normalizeChildTranscript parse size snapshot =
      let written := placeReports parse [] snapshot.events
      let kept := Ring.lastFit (Fits size) written
      { events := kept
        truncated := snapshot.truncated || cutIn parse [] snapshot.events ||
          decide (kept.length < written.length) } := by
  have hstart : Loop size { truncated := snapshot.truncated } [] [] snapshot.truncated :=
    ⟨fun _ => rfl, rfl, rfl, by simp [Ring.lastFit]⟩
  have hend := @Loop.addAll parse _ _ _ _ _ snapshot.events hstart
  rw [List.nil_append] at hend
  unfold normalizeChildTranscript
  dsimp only
  rw [hend.events, hend.truncated, sized, List.map_map]
  congr 1
  exact List.map_id _

/-! ## Doing it again -/

/-- Events that only say something. -/
def Texts (l : List SnapshotEvent) : Prop := ∀ e ∈ l, ∃ text, said e.event = some text

/-- What is awaited behind some events is awaited behind others too. -/
def Within (fewer before : List SnapshotEvent) : Prop :=
  ∀ id text, awaited fewer id = some text → awaited before id = some text

variable {fewer following l : List SnapshotEvent} {e : SnapshotEvent}

theorem within_nil : Within [] before := fun _ _ h => by cases h

theorem Within.concat (h : Within fewer before) (e : SnapshotEvent) :
    Within (fewer ++ [e]) (before ++ [e]) := by
  intro id text hid
  rw [awaited_concat] at hid ⊢
  rcases hw : wordOn id e.event with _ | word
  · rw [hw] at hid
    exact h id text hid
  · rw [hw] at hid
    exact hid

theorem confirmed_text {text : String} (h : said e.event = some text) :
    confirmed parse before e = none := by
  unfold confirmed
  cases hev : e.event with
  | toolResult => simp [hev, said] at h
  | _ => rfl

theorem awaited_texts (h : Texts l) (id : String) : awaited (before ++ l) id = awaited before id := by
  induction l generalizing before with
  | nil => rw [List.append_nil]
  | cons e l ih =>
    obtain ⟨text, htext⟩ := h e List.mem_cons_self
    have hword : wordOn id e.event = none := by
      cases hev : e.event with
      | tool => simp [hev, said] at htext
      | toolResult => simp [hev, said] at htext
      | _ => rfl
    have hstep := @ih (before ++ [e]) fun x hx => h x (List.mem_cons_of_mem e hx)
    rw [List.append_assoc, awaited_concat, hword] at hstep
    exact hstep

theorem Within.texts (h : Within fewer before) (hl : Texts l) : Within (fewer ++ l) before := by
  intro id text hid
  rw [awaited_texts hl] at hid
  exact h id text hid

theorem Within.confirmed (h : Within fewer before) {text : String}
    (hc : confirmed parse fewer e = some text) : confirmed parse before e = some text := by
  unfold LatteWork.confirmed at hc ⊢
  cases hev : e.event with
  | toolResult id content isError =>
    rw [hev] at hc
    dsimp only at hc ⊢
    split_ifs at hc ⊢
    exact h id text hc
  | _ => simp [hev] at hc

theorem inserted_texts : Texts (inserted parse before e following) := by
  unfold inserted
  split
  · dsimp only
    split
    · exact fun _ hx => absurd hx List.not_mem_nil
    · exact (reportEvents_pieces _ _ _ _).said
  · exact fun _ hx => absurd hx List.not_mem_nil

/-- Nothing is put behind texts. -/
theorem placeReports_texts (h : Texts l) :
    placeReports parse before (l ++ following) = l ++ placeReports parse (before ++ l) following := by
  induction l generalizing before with
  | nil => rw [List.append_nil, List.nil_append, List.nil_append]
  | cons e l ih =>
    obtain ⟨text, htext⟩ := h e List.mem_cons_self
    have hnone : inserted parse before e (l ++ following) = [] := by
      rw [inserted, confirmed_text htext]
    rw [List.cons_append, placeReports, hnone, List.nil_append,
      ih fun x hx => h x (List.mem_cons_of_mem e hx), List.append_assoc]
    rfl

theorem cutIn_texts (h : Texts l) :
    cutIn parse before (l ++ following) = cutIn parse (before ++ l) following := by
  induction l generalizing before with
  | nil => rw [List.append_nil, List.nil_append]
  | cons e l ih =>
    obtain ⟨text, htext⟩ := h e List.mem_cons_self
    rw [List.cons_append, cutIn, confirmed_text htext, ih fun x hx => h x (List.mem_cons_of_mem e hx),
      List.append_assoc]
    rfl

/-- Texts that the events begin with stay together. -/
theorem prefix_placeReports {texts : List (Option String)} (htexts : ∀ t ∈ texts, t.isSome = true)
    (h : texts <+: following.map (said ·.event)) :
    texts <+: (placeReports parse before following).map (said ·.event) := by
  induction texts generalizing before following with
  | nil => exact List.nil_prefix
  | cons t texts ih =>
    cases following with
    | nil => simp at h
    | cons e following =>
      rw [List.map_cons, List.cons_prefix_cons] at h
      obtain ⟨rfl, hrest⟩ := h
      obtain ⟨text, htext⟩ := Option.isSome_iff_exists.1 (htexts _ List.mem_cons_self)
      have hnone : inserted parse before e following = [] := by
        rw [inserted, confirmed_text htext]
      rw [placeReports, hnone, List.nil_append, List.map_cons, List.cons_prefix_cons]
      exact ⟨rfl, ih (fun t ht => htexts t (List.mem_cons_of_mem _ ht)) hrest⟩

/-- A report that was put in, or was there, is found again. -/
theorem inserted_again (hw : Within fewer before) (rest : List SnapshotEvent) :
    inserted parse fewer e (inserted parse before e following ++
      placeReports parse rest following) = [] := by
  rcases hc : confirmed parse fewer e with _ | text
  · rw [inserted, hc]
  have hpieces := reportEvents_pieces text e.seq e.sessionId e.atMs
  rw [inserted, hc]
  dsimp only
  rw [if_pos]
  rw [inserted, hw.confirmed hc]
  dsimp only
  split
  · rename_i hthere
    rw [List.nil_append]
    refine prefix_placeReports (fun t ht => ?_) hthere
    obtain ⟨x, hx, rfl⟩ := List.mem_map.1 ht
    obtain ⟨piece, hpiece⟩ := hpieces.said x hx
    rw [hpiece]
    rfl
  · rw [List.map_append]
    exact List.prefix_append _ _

/-- Reports are put in once, also when less is awaited the second time. -/
theorem placeReports_again (hw : Within fewer before) :
    placeReports parse fewer (placeReports parse before following) =
      placeReports parse before following := by
  induction following generalizing fewer before with
  | nil => rfl
  | cons e following ih =>
    rw [placeReports, placeReports, inserted_again hw, List.nil_append, placeReports_texts inserted_texts,
      ih ((hw.concat e).texts inserted_texts)]

theorem cutIn_again (hw : Within fewer before)
    (h : cutIn parse fewer (placeReports parse before following) = true) :
    cutIn parse before following = true := by
  induction following generalizing fewer before with
  | nil => exact h
  | cons e following ih =>
    rw [placeReports, cutIn, cutIn_texts inserted_texts, Bool.or_eq_true] at h
    rw [cutIn, Bool.or_eq_true]
    rcases h with h | h
    · rcases hc : confirmed parse fewer e with _ | text
      · rw [hc] at h
        cases h
      · rw [hc] at h
        rw [hw.confirmed hc]
        exact .inl h
    · exact .inr (ih ((hw.concat e).texts inserted_texts) h)

/-- The end of what is written is itself written already: the front confirmed nothing in it that is
not confirmed there. -/
theorem suffix_again (h : l <:+ placeReports parse before following) :
    placeReports parse [] l = l ∧ (cutIn parse [] l = true → cutIn parse before following = true) := by
  induction following generalizing before with
  | nil =>
    obtain rfl := List.suffix_nil.1 h
    exact ⟨rfl, id⟩
  | cons e following ih =>
    rw [placeReports, List.suffix_cons_iff] at h
    rcases h with hl | h
    · have hwritten : placeReports parse [] (placeReports parse before (e :: following)) =
          placeReports parse before (e :: following) := placeReports_again within_nil
      have hcut : cutIn parse [] (placeReports parse before (e :: following)) = true →
          cutIn parse before (e :: following) = true := cutIn_again within_nil
      subst hl
      exact ⟨hwritten, hcut⟩
    have hlater : cutIn parse (before ++ [e]) following = true → cutIn parse before (e :: following) = true := by
      intro hcut
      rw [cutIn, hcut, Bool.or_true]
    rcases List.suffix_or_suffix_of_suffix h (List.suffix_append _ _) with hl | ⟨front, rfl⟩
    · obtain ⟨hwritten, hcut⟩ := ih hl
      exact ⟨hwritten, hlater ∘ hcut⟩
    · have hfront : Texts front := by
        intro x hx
        obtain ⟨more, hmore⟩ := h
        rw [← List.append_assoc, List.append_left_inj] at hmore
        refine @inserted_texts parse before following e x ?_
        rw [← hmore]
        exact List.mem_append_right _ hx
      have hw : Within ([] ++ front) (before ++ [e]) := within_nil.texts hfront
      rw [placeReports_texts hfront, placeReports_again hw, cutIn_texts hfront]
      exact ⟨rfl, hlater ∘ cutIn_again hw⟩

theorem sublist_placeReports : following.Sublist (placeReports parse before following) := by
  induction following generalizing before with
  | nil => exact List.Sublist.slnil
  | cons e following ih => exact (ih.trans (List.sublist_append_right _ _)).cons_cons e

/-- Dropping the front of what is written drops a front of the events: the others stay, in order. -/
theorem drop_sublist {front : List SnapshotEvent} (h : front ++ l = placeReports parse before following) :
    ∃ n ≤ following.length, (following.drop n).Sublist l ∧ (following.take n).Sublist front := by
  induction following generalizing before front with
  | nil => exact ⟨0, Nat.zero_le _, List.nil_sublist _, List.nil_sublist _⟩
  | cons e following ih =>
    rcases front with _ | ⟨x, front⟩
    · rw [List.nil_append] at h
      refine ⟨0, Nat.zero_le _, ?_, List.nil_sublist _⟩
      rw [h]
      exact sublist_placeReports
    rw [placeReports, List.cons_append] at h
    obtain ⟨rfl, h⟩ := List.cons.inj h
    rcases List.append_eq_append_iff.1 h with ⟨more, _, rfl⟩ | ⟨more, rfl, hrest⟩
    · refine ⟨1, by simp, ?_, (List.nil_sublist _).cons_cons x⟩
      exact sublist_placeReports.trans (List.sublist_append_right _ _)
    · obtain ⟨n, hn, hdrop, htake⟩ := ih hrest.symm
      refine ⟨n + 1, by simpa using hn, hdrop, ?_⟩
      exact (htake.trans (List.sublist_append_right _ _)).cons_cons x

/-- What is awaited was handed back by a tool that came before. -/
theorem awaited_handback {id text : String} (h : awaited before id = some text) :
    ∃ tool ∈ before, ∃ input, tool.event = .tool id "SubagentHandback" input ∧
      (input.index "message").str? = some text := by
  induction before using List.reverseRecOn with
  | nil => cases h
  | append_singleton before e ih =>
    rw [awaited_concat] at h
    rcases hw : wordOn id e.event with _ | word
    · rw [hw] at h
      obtain ⟨tool, hmem, htool⟩ := ih h
      exact ⟨tool, List.mem_append_left _ hmem, htool⟩
    · rw [hw] at h
      obtain rfl : word = some text := h
      refine ⟨e, List.mem_append_right _ (List.mem_singleton_self e), ?_⟩
      unfold wordOn at hw
      split at hw
      · rename_i i name input hev
        split_ifs at hw with hname
        obtain ⟨message, hmessage, hsome⟩ := Option.map_eq_some_iff.1 hw
        obtain rfl := Option.some.inj hsome
        exact ⟨input, by rw [hev, hname.1, hname.2], hmessage⟩
      · split_ifs at hw
        cases hw
      · cases hw

/-- A confirmed report is the one of `confirmed_child_report`. -/
theorem confirmed_report {text : String} (h : confirmed parse before e = some text) :
    ∃ tool ∈ before, confirmedChildReport parse tool.event e.event = some text := by
  unfold confirmed at h
  cases hev : e.event with
  | toolResult id content isError =>
    rw [hev] at h
    dsimp only at h
    split_ifs at h with hdelivered
    obtain ⟨tool, hmem, input, htool, hmessage⟩ := awaited_handback h
    refine ⟨tool, hmem, ?_⟩
    rw [htool, confirmedChildReport, if_neg (by simp [hdelivered])]
    exact hmessage
  | _ => simp [hev] at h

theorem cutIn_of_confirmed {text : String} {front : List SnapshotEvent}
    (h : confirmed parse (before ++ front) e = some text) (hcut : (clipReport text).2 = true) :
    cutIn parse before (front ++ e :: following) = true := by
  induction front generalizing before with
  | nil =>
    rw [List.append_nil] at h
    rw [List.nil_append, cutIn, h, Bool.or_eq_true]
    exact .inl hcut
  | cons x front ih =>
    rw [List.cons_append, cutIn, Bool.or_eq_true]
    refine .inr (ih ?_)
    rwa [List.append_assoc]

/-- Normalizing puts every confirmed report behind its result once, within the bounds of a snapshot. -/
theorem reports_once (parse : String → Option Json) (size : SnapshotEvent → ℕ)
    (snapshot : ChildTranscript) :
    let result := normalizeChildTranscript parse size snapshot
    normalizeChildTranscript parse size result = result ∧
    -- the events, each with the report it confirms, but for a front that is dropped
    (∃ dropped, dropped ++ result.events = placeReports parse [] snapshot.events ∧
      (dropped ≠ [] → result.truncated = true)) ∧
    (∃ n ≤ snapshot.events.length, (snapshot.events.drop n).Sublist result.events ∧
      (0 < n → result.truncated = true)) ∧
    (result.events.length ≤ 500 ∧ (result.events.map size).sum ≤ 256 * 1024) ∧
    (snapshot.truncated = true → result.truncated = true) ∧
    (∀ before e following text, snapshot.events = before ++ e :: following →
      confirmed parse before e = some text →
        (∃ tool ∈ before, confirmedChildReport parse tool.event e.event = some text) ∧
        ∃ shown cut, ShownReport text shown cut ∧ (cut = true → result.truncated = true) ∧
          InPieces shown e.seq (reportEvents text e.seq e.sessionId e.atMs).1) := by
  intro result
  have hresult : result = _ := normalize_eq snapshot
  dsimp only at hresult
  have hsuffix := @Ring.lastFit_suffix _ (Fits size) _ (placeReports parse [] snapshot.events)
  obtain ⟨dropped, hdropped⟩ := id hsuffix
  have hevents : result.events = Ring.lastFit (Fits size) (placeReports parse [] snapshot.events) := by
    rw [hresult]
  have hfits : Fits size result.events := by
    rw [hevents]
    exact Ring.fits_lastFit ⟨Nat.zero_le _, Nat.zero_le _⟩ _
  have htruncated : snapshot.truncated = true ∨ cutIn parse [] snapshot.events = true ∨ dropped ≠ [] →
      result.truncated = true := by
    have hlength := congrArg List.length hdropped
    rw [List.length_append] at hlength
    rw [hresult, Bool.or_eq_true, Bool.or_eq_true, decide_eq_true_eq, or_assoc]
    refine Or.imp id (Or.imp id fun hne => ?_)
    have := List.length_pos_of_ne_nil hne
    omega
  refine ⟨?_, ⟨dropped, ?_, fun h => htruncated (.inr (.inr h))⟩, ?_, hfits,
    fun h => htruncated (.inl h), fun before e following text hsplit hc => ⟨confirmed_report hc, ?_⟩⟩
  -- the second time there is nothing to put in and nothing to drop
  · rw [← hevents] at hsuffix
    obtain ⟨hwritten, hcut⟩ := suffix_again hsuffix
    rw [normalize_eq]
    dsimp only
    rw [hwritten, Ring.lastFit_eq_self hfits, decide_eq_false (lt_irrefl _), Bool.or_false]
    have hflag : (result.truncated || cutIn parse [] result.events) = result.truncated := by
      rcases hc : cutIn parse [] result.events
      · rw [Bool.or_false]
      · rw [Bool.or_true, htruncated (.inr (.inl (hcut hc)))]
    rw [hflag]
  · rw [hevents]
    exact hdropped
  · obtain ⟨n, hn, hdrop, htake⟩ := drop_sublist hdropped
    refine ⟨n, hn, ?_, fun hpos => htruncated (.inr (.inr ?_))⟩
    · rw [hevents]
      exact hdrop
    · rintro rfl
      have := htake.length_le
      rw [List.length_take, List.length_nil] at this
      omega
  · refine ⟨_, _, clipReport_shown text, fun hcut => htruncated (.inr (.inl ?_)),
      reportEvents_pieces text e.seq e.sessionId e.atMs⟩
    rw [hsplit]
    exact cutIn_of_confirmed (by rwa [List.nil_append]) hcut

/-! ## Large numbers -/

theorem frontBytes_replicate (limit n : ℕ) :
    frontBytes limit (List.replicate n 'a') = List.replicate (min limit n) 'a' := by
  induction n generalizing limit with
  | zero => rw [Nat.min_zero, List.replicate_zero, frontBytes]
  | succ n ih =>
    have hsize : 'a'.utf8Size = 1 := rfl
    rw [List.replicate_succ, frontBytes, hsize]
    rcases limit with _ | limit
    · simp
    · rw [if_pos (by omega), ih, Nat.add_sub_cancel, ← List.replicate_succ, Nat.succ_min_succ]

theorem reportPieces_replicate {n rounds : ℕ} (h : 4 * 1024 < n) (hn : n ≤ 8 * 1024) :
    ∃ front back, reportPieces (rounds + 2) (List.replicate n 'a') = [front, back] := by
  have hcons : ∀ k, 0 < k → ∃ rest, List.replicate k 'a' = 'a' :: rest := by
    intro k hk
    exact ⟨List.replicate (k - 1) 'a', by rw [← List.replicate_succ, Nat.sub_add_cancel hk]⟩
  have hround : ∀ k rounds, 0 < k → reportPieces (rounds + 1) (List.replicate k 'a') =
      List.replicate (min (4 * 1024) k) 'a' ::
        reportPieces rounds (List.replicate (k - min (4 * 1024) k) 'a') := by
    intro k rounds hk
    obtain ⟨rest, hrest⟩ := hcons k hk
    rw [hrest, reportPieces, ← hrest, frontBytes_replicate, List.length_replicate, List.drop_replicate]
    simp
  have hnone : n - min (4 * 1024) n - min (4 * 1024) (n - min (4 * 1024) n) = 0 := by omega
  have hempty : reportPieces rounds [] = [] := by cases rounds <;> rfl
  rw [hround n (rounds + 1) (by omega), hround _ rounds (by omega), hnone, List.replicate_zero, hempty]
  exact ⟨_, _, rfl⟩

/-- A report of ascii characters. -/
def plainReport (n : ℕ) : String := String.ofList (List.replicate n 'a')

theorem plainReport_collide {n : ℕ} (h : 4 * 1024 < n) (hn : n ≤ 8 * 1024) :
    ¬((reportEvents (plainReport n) (2 ^ 52) "child" 0).1.map (·.seq)).Pairwise (· < ·) := by
  have hsize : (plainReport n).utf8ByteSize = n := by
    rw [← String.utf8Len_toList, plainReport, String.toList_ofList, Json.utf8Len_of_ascii,
      List.length_replicate]
    intro c hc
    rw [List.eq_of_mem_replicate hc]
    decide
  have hclip : (clipReport (plainReport n)).1 = plainReport n := by
    rw [clipReport, if_neg (by omega)]
  have hlength : (plainReport n).length = n - 2 + 2 := by
    rw [plainReport, String.length_ofList, List.length_replicate]
    omega
  obtain ⟨front, back, hpieces⟩ := @reportPieces_replicate n (n - 2) h hn
  have hnumbers : (reportEvents (plainReport n) (2 ^ 52) "child" 0).1.map (·.seq) =
      [F64.add (2 ^ 52) ((1 : ℕ) / (64 : ℕ)), F64.add (2 ^ 52) ((2 : ℕ) / (64 : ℕ))] := by
    unfold reportEvents
    dsimp only
    rw [hclip, hlength, plainReport, String.toList_ofList, hpieces]
    rfl
  have hequal : F64.add (2 ^ 52) ((1 : ℕ) / (64 : ℕ)) = F64.add (2 ^ 52) ((2 : ℕ) / (64 : ℕ)) := by
    decide +kernel
  rw [hnumbers, hequal]
  simp

/-- From `2 ^ 47` on a double has no room for the pieces between two blocks: the two of a report of
five thousand bytes get one number. -/
theorem pieces_collide :
    ¬((reportEvents (plainReport 5000) (2 ^ 52) "child" 0).1.map (·.seq)).Pairwise (· < ·) :=
  plainReport_collide (by decide) (by decide)

end LatteWork
