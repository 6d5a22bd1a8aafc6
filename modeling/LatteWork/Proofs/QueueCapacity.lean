import LatteWork.Proofs.QueueOrder
import LatteWork.Wire.JsonSize

/-!
# What a queue holds

Adding a message and editing one check the bytes a session holds; every other operation leaves the
text of a message alone, except the native rejection that brings one back. It writes the message at
its next revision, which may take a digit more, and does not check.
-/

namespace LatteWork

open Fallible Table

/-- The next number takes one digit more. -/
def gainsDigit (n : ℕ) : Bool := (toString n).length < (toString (n + 1)).length

theorem length_succ (n : ℕ) : (toString (n + 1)).length =
    (toString n).length + if gainsDigit n then 1 else 0 := by
  have hpos : 0 < (toString n).length := Nat.length_repr_pos
  have hn : n < 10 ^ (toString n).length := (Nat.length_repr_le_iff hpos).1 le_rfl
  have hup : (toString (n + 1)).length ≤ (toString n).length + 1 := by
    refine (Nat.length_repr_le_iff (Nat.succ_pos _)).2 ?_
    rw [pow_succ]
    omega
  have hdown : (toString n).length ≤ (toString (n + 1)).length := by
    have hlt : n + 1 < 10 ^ (toString (n + 1)).length :=
      (Nat.length_repr_le_iff Nat.length_repr_pos).1 le_rfl
    exact (Nat.length_repr_le_iff (k := (toString (n + 1)).length) Nat.length_repr_pos).2 (by omega)
  simp only [gainsDigit, decide_eq_true_eq]
  split <;> omega

/-- The bytes of a message but for its revision. -/
theorem QueuedMessage.size_toJson (m : QueuedMessage) :
    m.toJson.size = { m with revision := 0 }.toJson.size + (toString m.revision).length - 1 := by
  simp only [QueuedMessage.toJson, Json.size_obj_cons, List.map_cons, Json.fieldSize, Json.size_nat,
    List.sum_cons, List.map_nil, List.sum_nil]
  have : (toString 0).length = 1 := by decide
  omega

@[simp]
theorem QueueRow.returned_status (row : QueueRow) : row.returned.status = .pending := rfl

@[simp]
theorem QueueRow.returned_sessionId (row : QueueRow) : row.returned.sessionId = row.sessionId := rfl

theorem QueueRow.bytes_returned (row : QueueRow) :
    row.returned.bytes = row.bytes + if gainsDigit row.data.revision then 1 else 0 := by
  have hpos : 0 < (toString row.data.revision).length := Nat.length_repr_pos
  have hnext := length_succ row.data.revision
  rw [QueueRow.bytes, QueueRow.bytes, QueuedMessage.size_toJson, QueuedMessage.size_toJson row.data]
  simp only [QueueRow.returned]
  omega

/-- What a row takes of its session's room. -/
def QueueRow.weight (id : String) (row : QueueRow) : ℕ := if row.held id then row.bytes else 0

theorem QueueRow.weight_of_held {id : String} {row : QueueRow} (h : row.held id) :
    row.weight id = row.bytes := if_pos h

theorem QueueRow.weight_of_other {id : String} {row : QueueRow} (h : row.sessionId ≠ id) :
    row.weight id = 0 := if_neg (by simp [QueueRow.held, h])

theorem sum_held (id : String) : ∀ rows : List QueueRow,
    ((rows.filter (QueueRow.held id)).map QueueRow.bytes).sum =
      (rows.map (QueueRow.weight id)).sum
  | [] => rfl
  | row :: rows => by
    have ih := sum_held id rows
    by_cases h : row.held id <;> simp [QueueRow.weight, h, ih]

/-- The bytes a session holds but for one message of it. -/
theorem sum_held_but {id : String} {row : QueueRow} : ∀ {rows : List QueueRow},
    Keyed QueueRow.requestId rows → row ∈ rows → row.held id →
      ((rows.filter fun q => q.held id && decide (some q.requestId ≠ some row.requestId)).map
        QueueRow.bytes).sum + row.bytes = (rows.map (QueueRow.weight id)).sum
  | [], _, h, _ => by simp at h
  | q :: rows, hk, h, hheld => by
    obtain ⟨hq, hrest⟩ := List.nodup_cons.1 hk
    by_cases hqr : q.requestId = row.requestId
    · obtain rfl : q = row := Keyed.eq hk List.mem_cons_self h hqr
      have hout : rows.filter (fun p => p.held id && decide (some p.requestId ≠ some q.requestId)) =
          rows.filter (QueueRow.held id) := by
        refine List.filter_congr fun p hp => ?_
        have hne : p.requestId ≠ q.requestId := fun h => hq (List.mem_map.2 ⟨p, hp, h⟩)
        simp [hne]
      rw [List.filter_cons_of_neg (by simp), hout, sum_held]
      simp [QueueRow.weight, hheld, Nat.add_comm]
    · have hmem : row ∈ rows := by
        rcases List.mem_cons.1 h with rfl | h
        · exact absurd rfl hqr
        · exact h
      have ih := sum_held_but hrest hmem hheld
      by_cases hqh : q.held id
      · rw [List.filter_cons_of_pos (by simp [hqh, hqr])]
        simp only [List.map_cons, List.sum_cons, QueueRow.weight, hqh, if_true] at ih ⊢
        omega
      · rw [List.filter_cons_of_neg (by simp [hqh])]
        simp only [List.map_cons, List.sum_cons, QueueRow.weight, hqh] at ih ⊢
        simpa using ih

/-- Only an edit, a rejection and a new message write a text. -/
def StoreOp.writesText : StoreOp → Bool
  | .enqueue .. | .edit .. | .rejectForwarded .. => true
  | _ => false

namespace Store

variable {s s' : Store} {id : String} {now : ℕ}

theorem heldBytes_none : s.heldBytes id none = (s.messageQueue.map (QueueRow.weight id)).sum := by
  rw [heldBytes, ← sum_held]
  congr 3
  simp

theorem heldBytes_some (hl : s.QueueLedger) {row : QueueRow} (hrow : row ∈ s.messageQueue)
    (h : row.held id) : s.heldBytes id (some row.requestId) + row.bytes = s.heldBytes id none := by
  rw [heldBytes_none]
  exact sum_held_but hl.keyed hrow h

/-- Every session holds at most 512 KiB. -/
def WithinBytes (s : Store) : Prop := ∀ id, s.heldBytes id none ≤ 512 * 1024

/-- A message that comes back at a longer revision finds a session that is not full. -/
def ReturnsRoom (s : Store) (op : StoreOp) : Prop :=
  ∀ row, s.Returns op row → gainsDigit row.data.revision →
    s.heldBytes row.sessionId none < 512 * 1024

/-- An update of the one row of a request. -/
theorem QueueLedger.update_eq (hl : s.QueueLedger) {row : QueueRow} (hrow : row ∈ s.messageQueue)
    {p : QueueRow → Bool} {f : QueueRow → QueueRow} (hp : p row)
    (hone : ∀ q, p q → q.requestId = row.requestId) :
    updateWhere p f s.messageQueue =
      updateWhere (fun q => decide (q.requestId = row.requestId)) (fun _ => f row)
        s.messageQueue := by
  simp only [updateWhere]
  refine List.map_congr_left fun q hq => ?_
  by_cases hpq : p q
  · obtain rfl : q = row := hl.row_eq hq hrow (hone q hpq)
    simp [hp]
  · have hne : q.requestId ≠ row.requestId := fun h => hpq (hl.row_eq hq hrow h ▸ hp)
    simp [hpq, hne]

theorem heldBytes_update (hl : s.QueueLedger) {row new : QueueRow} (hrow : row ∈ s.messageQueue)
    (hq : s'.messageQueue = updateWhere (fun q => decide (q.requestId = row.requestId))
      (fun _ => new) s.messageQueue) (id : String) :
    s'.heldBytes id none + row.weight id = s.heldBytes id none + new.weight id := by
  rw [heldBytes_none, heldBytes_none, hq]
  exact sum_overwrite hl.keyed hrow

/-- What an operation leaves of the rows, when it leaves their texts alone. -/
theorem heldBytes_le {op : StoreOp} (hm : List.Forall₂ (Moves op) s.messageQueue s'.messageQueue)
    (hdata : s'.messageQueue.map (·.data) = s.messageQueue.map (·.data)) (id : String) :
    s'.heldBytes id none ≤ s.heldBytes id none := by
  rw [heldBytes_none, heldBytes_none]
  generalize s.messageQueue = rows at hm hdata
  generalize s'.messageQueue = rows' at hm hdata
  induction hm with
  | nil => exact le_rfl
  | @cons a b _ _ hab _ ih =>
    simp only [List.map_cons, List.cons.injEq] at hdata
    have hrest := ih hdata.2
    have hle : b.weight id ≤ a.weight id := by
      by_cases hb : b.held id
      · simp [QueueRow.weight, hb, hab.held_of hb, QueueRow.bytes, hdata.1]
      · simp [QueueRow.weight, hb]
    simp only [List.map_cons, List.sum_cons]
    omega

theorem apply_texts {o : StoreOp × ℕ} (ho : o.1.writesText = false) (h : s.apply o = .ok s') :
    s'.messageQueue.map (·.data) = s.messageQueue.map (·.data) := by
  by_cases hq : o.1.quiet = true
  · rw [(apply_quiet hq h).messageQueue]
  obtain ⟨op, now⟩ := o
  cases op with
  | createSession fresh projectId agent =>
    obtain ⟨_, rfl⟩ := createSession_cases h
    rfl
  | archive id archived =>
    obtain ⟨x, _, _, rfl⟩ := archiveSession_cases h
    rfl
  | begin id r =>
    simp only [apply, map_eq_ok] at h
    obtain ⟨⟨t, new⟩, h, rfl⟩ := h
    obtain ⟨_, rfl, _⟩ | ⟨_, _, x, _, _, _, rfl⟩ := beginTurn_cases h
    · rfl
    · exact map_updateWhere (fun _ _ => by trivial) _
  | reorder id expected order =>
    obtain rfl | rfl := reorderQueue_cases h
    · rfl
    · refine forall₂_map_eq _ (fun a b hab => ?_) (@rank_rows id order _)
      obtain rfl | ⟨n, _, rfl⟩ := hab <;> rfl
  | take id requestId revision =>
    simp only [apply, map_eq_ok] at h
    obtain ⟨⟨t, entry⟩, h, rfl⟩ := h
    obtain ⟨_, _, _, _, _, _, _, rfl⟩ := takeQueued_cases h
    exact map_updateWhere (fun _ _ => by trivial) _
  | clear id =>
    obtain ⟨_, rfl⟩ := clearQueue_cases h
    exact map_updateWhere (fun _ _ => by trivial) _
  | markForwarded id requestId revision =>
    obtain ⟨_, _, _, _, _, _, rfl⟩ := markForwarded_cases h
    exact map_updateWhere (fun _ _ => by trivial) _
  | consumeForwarded id requests =>
    obtain rfl := Except.ok.inj h
    refine forall₂_map_eq _ (fun a b hab => ?_) (consumeForwarded_rows requests)
    obtain rfl | ⟨_, rfl⟩ := hab <;> rfl
  | uncertainForwarded id =>
    rw [(uncertainForwarded_queue h).1]
    exact map_updateWhere (fun _ _ => by trivial) _
  | reopen =>
    rw [(reopen_cases h).messageQueue]
    exact map_updateWhere (fun _ _ => by trivial) _
  | _ => simp_all [StoreOp.writesText, StoreOp.quiet]

/-- A new text for one message takes what it is measured with. -/
theorem withinBytes_update (hl : s.QueueLedger) (hs : s.WithinBytes) {row new : QueueRow}
    (hrow : row ∈ s.messageQueue) (hnew : new.sessionId = row.sessionId)
    (hheld : row.held row.sessionId) (hheld' : new.held row.sessionId)
    (hq : s'.messageQueue = updateWhere (fun q => decide (q.requestId = row.requestId))
      (fun _ => new) s.messageQueue) :
    s'.WithinBytes ↔
      s.heldBytes row.sessionId (some row.requestId) + new.bytes ≤ 512 * 1024 := by
  have hup := heldBytes_update hl hrow hq
  have hbut := heldBytes_some hl hrow hheld
  have hself := hup row.sessionId
  rw [QueueRow.weight_of_held hheld, QueueRow.weight_of_held hheld'] at hself
  constructor
  · intro h
    have := h row.sessionId
    omega
  · intro h other
    by_cases hother : row.sessionId = other
    · subst hother
      omega
    · have hout := hup other
      rw [QueueRow.weight_of_other hother, QueueRow.weight_of_other (hnew ▸ hother)] at hout
      have := hs other
      omega

theorem editQueued_withinBytes (hi : s.QueueInv) (hs : s.WithinBytes) {requestId : String}
    {revision : ℕ} {text : Option String} (h : s.editQueued id requestId revision text = .ok s') :
    s'.WithinBytes := by
  obtain ⟨row, hrow, hp, hreq, hrev, ⟨t, _, rfl, hsize⟩ | ⟨_, rfl⟩⟩ := editQueued_cases h
  · have hid : row.requestId = requestId := by rw [← hreq, hi.ledger.named row hrow]
    subst hid
    obtain ⟨rfl, hst⟩ := QueueRow.pendingIn_iff.1 hp
    have hheld := QueueRow.held_of_pendingIn hp
    have hq := hi.ledger.update_eq
      (f := fun q => { q with data := { row.data with text := t, revision := revision + 1 } }) hrow
      (QueueRow.isPending_iff.2 ⟨⟨rfl, rfl⟩, hst⟩) fun q hq => (QueueRow.isPending_iff.1 hq).1.2
    have hiff := @withinBytes_update s { s with messageQueue := _ } hi.ledger hs row _ hrow (by rfl)
      hheld (by exact hheld) hq
    exact hiff.2 hsize
  · intro other
    refine (@heldBytes_le s _ (.edit id requestId revision none) ?_ ?_ other).trans (hs other)
    · exact forall₂_updateWhere Moves.stay fun a _ hap =>
        .cancelled a (QueueRow.isPending_iff.1 hap).2
    · exact map_updateWhere (fun _ _ => by trivial) _

theorem enqueue_withinBytes (hs : s.WithinBytes) {r : Submission}
    (h : s.enqueue id r now = .ok s') : s'.WithinBytes := by
  obtain ⟨_, _, _, hsize, _, _, rfl⟩ := enqueue_cases h
  intro other
  have hold := hs other
  rw [heldBytes_none] at hold ⊢
  simp only [List.map_append, List.sum_append, List.map_cons, List.map_nil, List.sum_cons,
    List.sum_nil]
  by_cases hother : id = other
  · subst hother
    rw [heldBytes_none] at hsize
    rw [QueueRow.weight_of_held (by simp [QueueRow.held]), QueueRow.bytes]
    exact hsize
  · rw [QueueRow.weight_of_other hother]
    exact hold

/-- A message that comes back stays within the room exactly when its revision finds place. -/
theorem returned_withinBytes (hl : s.QueueLedger) (hs : s.WithinBytes) {row : QueueRow}
    (hrow : row ∈ s.messageQueue) (hst : row.status = .forwarded)
    (hq : s'.messageQueue = s.withReturned row) : s'.WithinBytes ↔
      (gainsDigit row.data.revision → s.heldBytes row.sessionId none < 512 * 1024) := by
  have hheld : row.held row.sessionId := by simp [QueueRow.held, hst]
  have hq' : s'.messageQueue = updateWhere (fun q => decide (q.requestId = row.requestId))
      (fun _ => row.returned) s.messageQueue := by
    rw [hq, withReturned]
    simp only [updateWhere]
    refine List.map_congr_left fun q hq => ?_
    have hiff : q.position = row.position ↔ q.requestId = row.requestId :=
      ⟨fun h => by rw [hl.position_eq hq hrow h], fun h => by rw [hl.row_eq hq hrow h]⟩
    simp only [hiff]
  have hheld' : row.returned.held row.sessionId := by simp [QueueRow.held]
  rw [withinBytes_update hl hs hrow (by rfl) hheld hheld' hq',
    QueueRow.bytes_returned]
  have hbut := heldBytes_some hl hrow hheld
  have hself := hs row.sessionId
  by_cases hg : gainsDigit row.data.revision
  · simp only [hg, if_true, true_implies]
    omega
  · rw [Bool.not_eq_true] at hg
    simp only [hg, Bool.false_eq_true, if_false, false_implies, iff_true]
    omega

theorem step_withinBytes_iff (hi : s.QueueInv) (hs : s.WithinBytes) (o : StoreOp × ℕ) :
    (s.step o).WithinBytes ↔ s.ReturnsRoom o.1 := by
  constructor
  · intro h row hret
    obtain ⟨op, now⟩ := o
    exact (returned_withinBytes hi.ledger hs hret.1 hret.2.1
      (step_of_returns hi.ledger now hret)).1 h
  · intro hroom
    refine Runs.attempt_keeps (fun s' h => ?_) hs
    obtain ⟨op, now⟩ := o
    by_cases hw : op.writesText = true
    · cases op with
      | enqueue id r => exact enqueue_withinBytes hs h
      | edit id requestId revision text => exact editQueued_withinBytes hi hs h
      | rejectForwarded id requestId reason =>
        obtain rfl | ⟨row, hret, hq⟩ := rejectForwarded_returns hi.ledger h
        · exact hs
        · exact (returned_withinBytes hi.ledger hs hret.1 hret.2.1 hq).2 (hroom row hret)
      | _ => cases hw
    · intro id
      rw [Bool.not_eq_true] at hw
      obtain ⟨hm, _⟩ | ⟨_, _, ho, _⟩ := apply_moves hi.ledger h
      · exact (heldBytes_le hm (apply_texts hw h) id).trans (hs id)
      · obtain rfl : op = _ := ho
        cases hw

/-- A session never has more than sixteen messages that are pending or handed off, so a queue is
listed whole; and their bytes are within 512 KiB throughout a run exactly when every message that
comes back at a longer revision finds a session that is not full. -/
theorem queue_within_limits (projects : List Project) (ops : List (StoreOp × ℕ)) :
    (∀ id, (((Store.empty projects).after ops).messageQueue.filter (QueueRow.held id)).length ≤ 16) ∧
    (∀ id entries, ((Store.empty projects).after ops).queued id = .ok entries →
      entries = (((Store.empty projects).after ops).pendingRows id).map fun row =>
        (row.data, row.fingerprint)) ∧
    ((∀ ahead, ahead <+: ops → ((Store.empty projects).after ahead).WithinBytes) ↔
      ∀ ahead o, ahead ++ [o] <+: ops → ((Store.empty projects).after ahead).ReturnsRoom o.1) := by
  have h₀ := empty_queueInv projects
  have hi := after_queueInv h₀ ops
  refine ⟨hi.capacity, fun id entries h => queued_eq_pendingRows hi h, ?_⟩
  exact Runs.prefixes_iff (A := fun _ => True) h₀ (fun _ o h => step_queueInv h o)
    (fun id => by simp [heldBytes, empty]) (fun _ o _ hi hs => step_withinBytes_iff hi hs o)
    fun _ _ => trivial

/-- Text that is six bytes of JSON a character: control characters, and two letters behind them. -/
def dense (n : ℕ) : String := String.ofList (List.replicate n (Char.ofNat 1) ++ ['a', 'a'])

theorem escape_replicate (c : Char) : ∀ n : ℕ,
    (Json.escape (List.replicate n c)).utf8ByteSize = n * (Json.escapeChar c).utf8ByteSize
  | 0 => by simp [Json.escape]
  | n + 1 => by
    rw [List.replicate_succ, Json.escape, String.utf8ByteSize_append, escape_replicate c n]
    ring

theorem size_dense (n : ℕ) : (Json.str (dense n)).size = 6 * n + 4 := by
  have hchar : (Json.escapeChar (Char.ofNat 1)).utf8ByteSize = 6 := by decide
  have htail : (Json.escape ['a', 'a']).utf8ByteSize = 2 := by decide
  rw [Json.size_str, dense, String.toList_ofList, Json.escape_append, String.utf8ByteSize_append,
    escape_replicate, hchar, htail]
  omega

theorem utf8ByteSize_dense (n : ℕ) : (dense n).utf8ByteSize = n + 2 := by
  rw [← String.utf8Len_toList, dense, String.toList_ofList, Json.utf8Len_of_ascii]
  · simp
  · intro c hc
    rcases List.mem_append.1 hc with hc | hc
    · rw [List.eq_of_mem_replicate hc]
      decide
    · obtain rfl : c = 'a' := by simpa using hc
      decide

theorem dense_not_blank (n : ℕ) : blank (dense n) = false := by
  simp only [blank, dense, String.toList_ofList, List.all_append, Bool.and_eq_false_iff]
  exact .inr (by decide)

def denseMessage (n : ℕ) : Submission := { note "a" none with text := dense n }

/-- The row of the message, at one of its revisions. -/
def denseRow (n revision : ℕ) : QueueRow where
  position := 1
  requestId := "a"
  sessionId := "s"
  admission := (denseMessage n).queued 1
  data := { (denseMessage n).queued 1 with revision }
  fingerprint := none
  sortOrder := 1

theorem bytes_denseRow (n revision : ℕ) :
    (denseRow n revision).bytes = 6 * n + 109 + (toString revision).length := by
  have hpos : 0 < (toString revision).length := Nat.length_repr_pos
  have htext : Json.fieldSize ("text", .str (dense n)) = 6 * n + 11 := by
    have hkey : (Json.quote "text").utf8ByteSize = 6 := by decide
    rw [Json.fieldSize, size_dense, hkey]
    omega
  have hother : [("model", Json.opt .str none), ("effort", .opt (.str ∘ Effort.asStr) none),
      ("permission_mode", .opt .str none), ("revision", .nat 0), ("created_at", .f64 1)].map
      (fun f => Json.fieldSize f + 1) = [13, 14, 23, 13, 17] := by decide
  have hid : Json.fieldSize ("request_id", .str "a") = 16 := by decide
  rw [QueueRow.bytes, QueuedMessage.size_toJson]
  simp only [denseRow, Submission.queued, denseMessage, note, QueuedMessage.toJson,
    Json.size_obj_cons, List.map_cons (a := ("text", Json.str (dense n))), htext, List.sum_cons,
    List.sum_nil, hother, hid]
  omega

/-- A session of one project, with nothing in its queue. -/
def opened : Store := (Store.empty [⟨"p", "p", "/p"⟩]).step (.createSession "s" "p" "claude", 0)

theorem enqueue_dense {n : ℕ} (hn : 6 * n + 110 ≤ 512 * 1024) :
    ((opened.step (.enqueue "s" (denseMessage n), 1))).messageQueue = [denseRow n 0] := by
  have hfresh : (opened.session "s").toOption.map (·.archived) = some false ∧
      opened.queued "s" = .ok [] ∧ opened.messageQueue = [] ∧ opened.heldBytes "s" none = 0 ∧
      opened.nextSortOrder "s" = 1 ∧ opened.lastPosition = 0 := by decide
  obtain ⟨hsession, hqueued, hrows, hheld, hsort, hposition⟩ := hfresh
  obtain ⟨x, hx, harch⟩ : ∃ x, opened.session "s" = .ok x ∧ x.archived = false := by
    rcases h : opened.session "s" with e | x
    · simp [h, Except.toOption] at hsession
    · exact ⟨x, rfl, by simpa [h, Except.toOption] using hsession⟩
  have hsize := bytes_denseRow n 0
  have hdigit : (toString 0).length = 1 := by decide
  have hform : ¬(blank (denseMessage n).text ∨ 128 * 1024 < (denseMessage n).text.utf8ByteSize ∨
      (denseMessage n).requestId = "" ∨ 100 < (denseMessage n).requestId.utf8ByteSize ∨
      (∃ v ∈ (denseMessage n).model, 256 < v.utf8ByteSize) ∨
      ∃ v ∈ (denseMessage n).permissionMode, 128 < v.utf8ByteSize) := by
    have hbytes : ¬128 * 1024 < (dense n).utf8ByteSize := by
      rw [utf8ByteSize_dense]
      omega
    have hid : ¬100 < "a".utf8ByteSize := by decide
    simp [denseMessage, note, dense_not_blank, hbytes, hid]
  obtain ⟨t, ht⟩ : ∃ t, opened.enqueue "s" (denseMessage n) 1 = .ok t := by
    simp only [enqueue, bind_eq_ok, bailIf_eq_ok]
    refine ⟨_, (), hform, x, hx, (), by simp [harch], [], hqueued, (), by simp, (), by simp [hrows],
      (), ?_, (), by simp [hrows], rfl⟩
    rw [hheld]
    have hdata : (denseRow n 0).bytes = ((denseMessage n).queued 1).toJson.size := rfl
    omega
  rw [step_ok (o := (.enqueue "s" (denseMessage n), 1)) ht]
  obtain ⟨_, _, _, _, _, _, rfl⟩ := enqueue_cases ht
  simp only [hrows, hposition, hsort]
  rfl

/-- Handed off inside a turn, and refused. -/
def refusal (revision : ℕ) : List (StoreOp × ℕ) :=
  [(.markForwarded "s" "a" revision, 2), (.rejectForwarded "s" "a" "no", 3)]

theorem after_refusal {s : Store} {n revision : ℕ} (h : s.messageQueue = [denseRow n revision])
    (hr : revision + 1 < 2 ^ 32) :
    (s.after (refusal revision)).messageQueue = [denseRow n (revision + 1)] := by
  obtain ⟨t, ht⟩ : ∃ t, s.markForwarded "s" "a" revision 2 = .ok t := by
    simp [markForwarded, queueRow, h, QueueRow.is, denseRow, bailIf]
  have hmark : t.messageQueue = [{ denseRow n revision with status := .forwarded }] := by
    obtain ⟨_, _, _, _, _, _, rfl⟩ := markForwarded_cases ht
    simp [h, QueueRow.is, denseRow]
  obtain ⟨u, hu⟩ : ∃ u, t.rejectForwarded "s" "a" "no" 3 = .ok u := by
    have hnext : nextRevision revision = some (revision + 1) := if_pos hr
    simp [rejectForwarded, hmark, QueueRow.isForwarded, QueueRow.is, denseRow, hnext]
  have hreject : u.messageQueue = [denseRow n (revision + 1)] := by
    obtain ⟨_, hnone⟩ | ⟨row, hrow, _, _, _, _, rfl⟩ := rejectForwarded_cases hu
    · simp [hmark, QueueRow.isForwarded, QueueRow.is, denseRow] at hnone
    · rw [hmark, List.mem_singleton] at hrow
      subst hrow
      simp [hmark, QueueRow.isForwarded, QueueRow.is, denseRow]
  have hrun : s.after (refusal revision) = u := by
    have hs := step_ok (o := (.markForwarded "s" "a" revision, 2)) ht
    have ht' := step_ok (o := (.rejectForwarded "s" "a" "no", 3)) hu
    simp only [after, Runs.run, refusal, List.foldl_cons, List.foldl_nil, hs, ht']
  rw [hrun, hreject]

theorem after_refusals {s : Store} {n : ℕ} (h : s.messageQueue = [denseRow n 0]) : ∀ k < 2 ^ 32,
    (s.after ((List.range k).flatMap refusal)).messageQueue = [denseRow n k]
  | 0, _ => h
  | k + 1, hk => by
    rw [List.range_succ, List.flatMap_append, List.flatMap_singleton, after, Runs.run_append]
    exact after_refusal (after_refusals h k (by omega)) hk

/-- A message that fills its session is refused ten times, and its revision takes two digits. -/
def overfullRun (n : ℕ) : List (StoreOp × ℕ) :=
  [(.createSession "s" "p" "claude", 0), (.enqueue "s" (denseMessage n), 1)] ++
    (List.range 10).flatMap refusal

theorem after_overfullRun {n : ℕ} (hn : 6 * n + 110 ≤ 512 * 1024) :
    ((Store.empty [⟨"p", "p", "/p"⟩]).after (overfullRun n)).messageQueue = [denseRow n 10] := by
  rw [overfullRun, after, Runs.run_append]
  exact after_refusals (enqueue_dense hn) 10 (by omega)

/-- A reachable queue of more than 512 KiB. -/
theorem overfullRun_beyond_limit :
    ¬∀ projects ops, ((Store.empty projects).after ops).WithinBytes := by
  intro h
  have hqueue := after_overfullRun (n := 87363) (by omega)
  have hlimit := h [⟨"p", "p", "/p"⟩] (overfullRun 87363) "s"
  rw [heldBytes_none, hqueue, List.map_singleton, List.sum_singleton,
    QueueRow.weight_of_held (by rfl), bytes_denseRow] at hlimit
  have hdigits : (toString 10).length = 2 := by decide
  omega

end Store

end LatteWork
