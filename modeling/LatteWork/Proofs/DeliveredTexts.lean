import LatteWork.Proofs.ChildRows
import LatteWork.Proofs.HistoryPages
import LatteWork.Proofs.RunningTurns
import LatteWork.Workbench.Transcript

/-!
# The texts that were delivered

What the user wrote is delivered as the prompt of a turn or by a hand-off inside one. The
transcript shows of the hand-offs of a message the first alone, and a prompt unless it says what
that one said: of every text that was delivered it shows one row, but for a text that a message
was given after its first hand-off and that was then only handed off.
-/

namespace LatteWork

open Fallible Table

/-! ### What is shown -/

/-- The request of a delivery, and its text. -/
def EventKind.delivery : EventKind → Option (String × String)
  | user said requestId | queuedMessageSent said requestId => some (requestId, said)
  | _ => none

/-- A row of the user that is seen: its number and its text. -/
def Item.seen : Item → Option (ℕ × String)
  | .user key text _ _ false => some (key, text)
  | _ => none

/-- The rows of the user that are seen. -/
def userRows (log : List Event) : List (ℕ × String) :=
  (transcript log (queuedInputReceipts log)).filterMap Item.seen

/-- An event delivers a text of a request. -/
def Event.delivers (requestId : String) (e : Event) : Bool :=
  e.event.delivery.any fun d => d.1 = requestId

/-- The texts that are seen of a request: of the rows that stand for its deliveries. -/
def shownTexts (log : List Event) (requestId : String) : List String :=
  (userRows log).filterMap fun row =>
    if log.any fun e => e.seq = row.1 && e.delivers requestId then some row.2 else none

/-- The texts of a request that were handed off inside a turn. -/
def handedTexts (log : List Event) (requestId : String) : List String :=
  log.filterMap fun e =>
    match e.event with
    | .queuedMessageSent text q => if q = requestId then some text else none
    | _ => none

/-- The texts of a request that were the prompt of a turn. -/
def executedTexts (log : List Event) (requestId : String) : List String :=
  log.filterMap fun e =>
    match e.event with
    | .user text q => if q = requestId then some text else none
    | _ => none

/-- The row an event is seen as, if it is the user's. -/
def rowOf (receipts : List ((String × String) × String × ℕ)) (e : Event) : Option (ℕ × String) :=
  match e.event with
  | .queuedMessageSent text requestId =>
    if (receipts.lookup (e.sessionId, requestId)).any fun r => r.2 = e.seq then some (e.seq, text)
    else none
  | .user text requestId =>
    if (receipts.lookup (e.sessionId, requestId)).any fun r => r.1 = text && decide (r.2 < e.seq)
    then none
    else some (e.seq, text)
  | _ => none

theorem seen_say (scan : TranscriptScan) (seq : ℕ) (text : String) :
    (scan.say seq text).items.filterMap Item.seen = scan.items.filterMap Item.seen := by
  unfold TranscriptScan.say
  split
  · rename_i h
    rw [h]
    rfl
  · rfl

theorem seen_step (m : TranscriptMaps) (scan : TranscriptScan) (e : Event) :
    (scan.step m e).items.filterMap Item.seen =
      (rowOf m.receipts e).toList ++ scan.items.filterMap Item.seen := by
  unfold TranscriptScan.step rowOf
  cases he : e.event with
  | text t => exact seen_say _ _ _
  | queuedMessageSent text requestId =>
    dsimp only
    split <;> rfl
  | user text requestId =>
    dsimp only
    cases (m.receipts.lookup (e.sessionId, requestId)).any
      fun r => r.1 = text && decide (r.2 < e.seq) <;> rfl
  | turnChanges changes =>
    dsimp only
    split <;> rfl
  | state status message =>
    dsimp only
    split <;> rfl
  | _ => rfl

/-- The rows of the user are seen event by event. -/
theorem userRows_eq (log : List Event) :
    userRows log = log.filterMap (rowOf (queuedInputReceipts log)) := by
  have hfold : ∀ (m : TranscriptMaps) (events : List Event) (scan : TranscriptScan),
      (events.foldl (TranscriptScan.step m) scan).items.filterMap Item.seen =
        (events.filterMap (rowOf m.receipts)).reverse ++ scan.items.filterMap Item.seen := by
    intro m events
    induction events with
    | nil => intro scan; rfl
    | cons e events ih =>
      intro scan
      rw [List.foldl_cons, ih, seen_step, List.filterMap_cons]
      cases rowOf m.receipts e <;> simp
  have hvisible : ∀ items : List Item,
      (items.filter Item.visible).filterMap Item.seen = items.filterMap Item.seen := by
    intro items
    rw [List.filterMap_filter]
    refine List.filterMap_congr fun i _ => ?_
    cases i with
    | event key value => cases value <;> simp [Item.seen]
    | _ => rfl
  rw [userRows, transcript, hvisible, List.filterMap_reverse, hfold]
  simp [TranscriptMaps.ofEvents]

/-! ### One request -/

section

variable {log : List Event} {id requestId : String}

/-- After its prompt a request has no delivery. -/
def PromptLast (log : List Event) : Prop :=
  log.Pairwise fun a b => ∀ requestId, a.event.userRequest = some requestId →
    b.delivers requestId = false

/-- The deliveries of a request. -/
def mine (log : List Event) (requestId : String) : List Event := log.filter (·.delivers requestId)

theorem rowOf_seq {receipts : List ((String × String) × String × ℕ)} {e : Event} {row : ℕ × String}
    (h : rowOf receipts e = some row) : row.1 = e.seq ∧ e.event.delivery.isSome := by
  unfold rowOf at h
  cases he : e.event with
  | queuedMessageSent text q =>
    rw [he] at h
    dsimp only at h
    split at h
    · obtain rfl := Option.some.inj h
      exact ⟨rfl, rfl⟩
    · cases h
  | user text q =>
    rw [he] at h
    dsimp only at h
    split at h
    · cases h
    · obtain rfl := Option.some.inj h
      exact ⟨rfl, rfl⟩
  | _ =>
    rw [he] at h
    cases h

theorem shownTexts_mine (hseq : log.Pairwise (·.seq < ·.seq)) :
    shownTexts log requestId =
      (mine log requestId).filterMap fun e => (rowOf (queuedInputReceipts log) e).map (·.2) := by
  rw [shownTexts, userRows_eq, List.filterMap_filterMap, mine, List.filterMap_filter]
  refine List.filterMap_congr fun e he => ?_
  cases hrow : rowOf (queuedInputReceipts log) e with
  | none => simp
  | some row =>
    obtain ⟨hkey, -⟩ := rowOf_seq hrow
    have hany : (log.any fun e' => e'.seq = row.1 && e'.delivers requestId) =
        e.delivers requestId := by
      rw [Bool.eq_iff_iff, List.any_eq_true]
      constructor
      · rintro ⟨e', he', h⟩
        simp only [hkey, Bool.and_eq_true, decide_eq_true_eq] at h
        have hnodup : (log.map (·.seq)).Nodup :=
          List.pairwise_map.2 (hseq.imp fun h => Nat.ne_of_lt h)
        rw [← List.inj_on_of_nodup_map hnodup he' he h.1]
        exact h.2
      · exact fun h => ⟨e, he, by simp [hkey, h]⟩
    simp only [Option.bind_some, hany, Option.map_some]

/-- The text of a hand-off, and that of a prompt. -/
def handedText (e : Event) : Option String :=
  match e.event with
  | .queuedMessageSent text _ => some text
  | _ => none

def executedText (e : Event) : Option String :=
  match e.event with
  | .user text _ => some text
  | _ => none

theorem handedTexts_mine : handedTexts log requestId = (mine log requestId).filterMap handedText := by
  rw [handedTexts, mine, List.filterMap_filter]
  refine List.filterMap_congr fun e _ => ?_
  unfold handedText Event.delivers
  cases e.event <;> simp [EventKind.delivery]

theorem executedTexts_mine :
    executedTexts log requestId = (mine log requestId).filterMap executedText := by
  rw [executedTexts, mine, List.filterMap_filter]
  refine List.filterMap_congr fun e _ => ?_
  unfold executedText Event.delivers
  cases e.event <;> simp [EventKind.delivery]

/-- A request's first hand-off, with its number. -/
theorem lookup_receipts (hid : ∀ e ∈ log, e.sessionId = id) :
    (queuedInputReceipts log).lookup (id, requestId) =
      ((mine log requestId).filterMap fun e => (handedText e).map (·, e.seq)).head? := by
  induction log with
  | nil => rfl
  | cons e log ih =>
    have ih := ih fun e he => hid e (List.mem_cons_of_mem _ he)
    have he := hid e List.mem_cons_self
    unfold queuedInputReceipts mine at ih ⊢
    rw [List.filterMap_cons, List.filter_cons]
    cases hk : e.event with
    | queuedMessageSent text q =>
      dsimp only
      rw [List.lookup_cons, he]
      by_cases hq : q = requestId
      · subst hq
        simp [Event.delivers, EventKind.delivery, hk, handedText]
      · have hne : ((id, requestId) == (id, q)) = false := by simp [Ne.symm hq]
        simp [hne, Event.delivers, EventKind.delivery, hk, hq, ih]
    | user text q =>
      by_cases hq : q = requestId
      · simp [Event.delivers, EventKind.delivery, hk, handedText, hq, ih]
      · simp [Event.delivers, EventKind.delivery, hk, hq, ih]
    | _ => simp [Event.delivers, EventKind.delivery, hk, ih]

theorem delivers_cases {e : Event} (h : e.delivers requestId = true) :
    (∃ text, e.event = .queuedMessageSent text requestId) ∨ ∃ text, e.event = .user text requestId := by
  unfold Event.delivers at h
  cases he : e.event with
  | queuedMessageSent text q =>
    obtain rfl : q = requestId := by simpa [he, EventKind.delivery] using h
    exact .inl ⟨text, rfl⟩
  | user text q =>
    obtain rfl : q = requestId := by simpa [he, EventKind.delivery] using h
    exact .inr ⟨text, rfl⟩
  | _ => simp [he, EventKind.delivery] at h

/-- A prompt is the last delivery of its request. -/
theorem prompt_alone {e : Event} {text : String} {rest : List Event}
    (he : e.event = .user text requestId) (hlast : PromptLast (e :: rest))
    (hmem : ∀ d ∈ rest, d.delivers requestId = true) : rest = [] := by
  refine List.eq_nil_iff_forall_not_mem.2 fun d hd => ?_
  have hnot := (List.pairwise_cons.1 hlast).1 d hd requestId (by rw [he]; rfl)
  rw [hmem d hd] at hnot
  cases hnot

theorem executedText_length : ∀ {l : List Event}, PromptLast l →
    (∀ e ∈ l, e.delivers requestId = true) → (l.filterMap executedText).length ≤ 1
  | [], _, _ => Nat.zero_le _
  | e :: rest, hlast, hmem => by
    have hrest := fun d hd => hmem d (List.mem_cons_of_mem e hd)
    rcases delivers_cases (hmem e List.mem_cons_self) with ⟨text, he⟩ | ⟨text, he⟩
    · have hnone : executedText e = none := by rw [executedText, he]
      rw [List.filterMap_cons, hnone]
      exact executedText_length (List.pairwise_cons.1 hlast).2 hrest
    · rw [prompt_alone he hlast hrest, List.filterMap_cons]
      cases executedText e <;> simp

/-- Of a request the first hand-off is seen, and the prompt unless it says the same. -/
theorem shownTexts_eq (hid : ∀ e ∈ log, e.sessionId = id) (hseq : log.Pairwise (·.seq < ·.seq))
    (hlast : PromptLast log) :
    (executedTexts log requestId).length ≤ 1 ∧
    shownTexts log requestId =
      match handedTexts log requestId with
      | [] => executedTexts log requestId
      | first :: _ => first :: (executedTexts log requestId).filter (· ≠ first) := by
  have hmem : ∀ e ∈ mine log requestId, e.sessionId = id ∧ e.delivers requestId = true :=
    fun e he => ⟨hid e (List.mem_filter.1 he).1, (List.mem_filter.1 he).2⟩
  have hseq' : (mine log requestId).Pairwise (·.seq < ·.seq) := hseq.filter _
  have hlast' : PromptLast (mine log requestId) := List.Pairwise.filter _ hlast
  rw [shownTexts_mine hseq, handedTexts_mine, executedTexts_mine]
  have hlookup := @lookup_receipts log id requestId hid
  generalize queuedInputReceipts log = receipts at hlookup ⊢
  cases hl : mine log requestId with
  | nil => simp
  | cons e rest =>
    rw [hl] at hmem hseq' hlast' hlookup
    obtain ⟨hse, hde⟩ := hmem e List.mem_cons_self
    refine ⟨executedText_length hlast' fun d hd => (hmem d hd).2, ?_⟩
    rcases delivers_cases hde with ⟨text, he⟩ | ⟨text, he⟩
    · have hfirst : handedText e = some text := by rw [handedText, he]
      have hnone : executedText e = none := by rw [executedText, he]
      simp only [List.filterMap_cons, hfirst, hnone, Option.map_some, List.head?_cons] at hlookup ⊢
      have hrow : rowOf receipts e = some (e.seq, text) := by
        simp [rowOf, he, hse, hlookup]
      have hrest : ∀ d ∈ rest, (rowOf receipts d).map (·.2) =
          (executedText d).filter (· ≠ text) := by
        intro d hd
        obtain ⟨hsd, hdd⟩ := hmem d (List.mem_cons_of_mem _ hd)
        have hlt := (List.pairwise_cons.1 hseq').1 d hd
        rcases delivers_cases hdd with ⟨said, hd⟩ | ⟨said, hd⟩
        · have hne : e.seq ≠ d.seq := Nat.ne_of_lt hlt
          simp [rowOf, hd, hsd, hlookup, executedText, hne]
        · by_cases hsaid : said = text
          · simp [rowOf, hd, hsd, hlookup, executedText, hsaid, hlt, Option.filter]
          · simp [rowOf, hd, hsd, hlookup, executedText, hsaid, Ne.symm hsaid, Option.filter]
      rw [hrow]
      simp only [Option.map_some, List.cons.injEq, true_and]
      rw [List.filterMap_congr hrest, List.filter_filterMap]
    · rw [prompt_alone he hlast' fun d hd => (hmem d (List.mem_cons_of_mem _ hd)).2] at hlookup ⊢
      have hnone : handedText e = none := by rw [handedText, he]
      simp only [List.filterMap_cons, List.filterMap_nil, hnone, Option.map_none, List.head?_nil]
        at hlookup ⊢
      simp [rowOf, he, hse, hlookup, executedText]

/-- A text was delivered under a request. -/
theorem delivered_iff {text : String} :
    (∃ e ∈ log, e.event.delivery = some (requestId, text)) ↔
      text ∈ handedTexts log requestId ∨ text ∈ executedTexts log requestId := by
  simp only [handedTexts, executedTexts, List.mem_filterMap]
  constructor
  · rintro ⟨e, he, hd⟩
    cases hk : e.event with
    | queuedMessageSent said q =>
      obtain ⟨rfl, rfl⟩ : q = requestId ∧ said = text := by simpa [hk, EventKind.delivery] using hd
      exact .inl ⟨e, he, by simp [hk]⟩
    | user said q =>
      obtain ⟨rfl, rfl⟩ : q = requestId ∧ said = text := by simpa [hk, EventKind.delivery] using hd
      exact .inr ⟨e, he, by simp [hk]⟩
    | _ => simp [hk, EventKind.delivery] at hd
  · rintro (⟨e, he, hd⟩ | ⟨e, he, hd⟩) <;> refine ⟨e, he, ?_⟩ <;> cases hk : e.event <;>
      simp_all [EventKind.delivery]

theorem count_one {text : String} : ∀ {texts : List String}, texts.length ≤ 1 → text ∈ texts →
    texts.count text = 1
  | [], _, h => by cases h
  | [said], _, h => by
    obtain rfl := List.mem_singleton.1 h
    simp
  | _ :: _ :: _, h, _ => by simp at h

theorem count_rows {first text : String} {texts : List String} (h : texts.length ≤ 1) :
    (first :: texts.filter (· ≠ first)).count text = 1 ↔
      some first = some text ∨ text ∈ texts := by
  have hle : ((texts.filter (· ≠ first)).count text) ≤ 1 :=
    Nat.le_trans List.count_le_length (Nat.le_trans (List.length_filter_le _ _) h)
  by_cases hf : first = text
  · subst hf
    have hnone : (texts.filter (· ≠ first)).count first = 0 :=
      List.count_eq_zero_of_not_mem (by simp)
    rw [List.count_cons_self, hnone]
    simp
  · have hcount : (texts.filter (· ≠ first)).count text = texts.count text := by
      rw [List.count_filter (by simpa using Ne.symm hf)]
    rw [List.count_cons_of_ne hf, hcount] at *
    simp only [Option.some.injEq, hf, false_or]
    exact ⟨fun hc => List.count_pos_iff.1 (by omega), count_one h⟩

/-- Every delivered text is seen once, exactly when every text that was handed off is the one that
was handed off first, or that of the prompt. -/
theorem shown_once_iff (hid : ∀ e ∈ log, e.sessionId = id) (hseq : log.Pairwise (·.seq < ·.seq))
    (hlast : PromptLast log) :
    (∀ e ∈ log, ∀ requestId text, e.event.delivery = some (requestId, text) →
      (shownTexts log requestId).count text = 1) ↔
    ∀ requestId, ∀ text ∈ handedTexts log requestId,
      (handedTexts log requestId).head? = some text ∨ text ∈ executedTexts log requestId := by
  have hcount : ∀ requestId text,
      (text ∈ handedTexts log requestId ∨ text ∈ executedTexts log requestId) →
      ((shownTexts log requestId).count text = 1 ↔
        (handedTexts log requestId).head? = some text ∨ text ∈ executedTexts log requestId) := by
    intro requestId text hdelivered
    obtain ⟨hone, hshown⟩ := @shownTexts_eq log id requestId hid hseq hlast
    rw [hshown]
    cases hh : handedTexts log requestId with
    | nil =>
      have hmem : text ∈ executedTexts log requestId := by simpa [hh] using hdelivered
      simpa [hmem] using count_one hone hmem
    | cons first rest => exact count_rows hone
  constructor
  · intro h requestId text htext
    obtain ⟨e, he, hd⟩ := delivered_iff.2 (.inl htext)
    exact (hcount requestId text (.inl htext)).1 (h e he requestId text hd)
  · intro h e he requestId text hd
    have hdelivered := delivered_iff.1 ⟨e, he, hd⟩
    refine (hcount requestId text hdelivered).2 ?_
    rcases hdelivered with htext | htext
    · exact h requestId text htext
    · exact .inr htext

end

/-! ### What the server logs -/

/-- After the prompt of a request, its session logs no delivery of it. -/
def EventRow.Done (a b : EventRow) : Prop :=
  a.sessionId = b.sessionId → ∀ requestId, a.event.userRequest = some requestId →
    ∀ d ∈ b.event.delivery, d.1 ≠ requestId

theorem EventRow.done_of_none {a b : EventRow} (h : b.event.delivery = none) : a.Done b := by
  intro _ requestId _ d hd
  rw [h] at hd
  cases hd

theorem delivery_fromAgent {e : EventKind} (h : e.fromAgent = true) :
    e.delivery = none ∧ e.userRequest = none := by
  cases e <;> first | exact ⟨rfl, rfl⟩ | cases h

theorem last_append {rows l : List EventRow} (h : rows.Pairwise EventRow.Done)
    (hl : ∀ row ∈ l, row.event.delivery = none) : (rows ++ l).Pairwise EventRow.Done := by
  refine List.pairwise_append.2 ⟨h, ?_, fun a _ b hb => EventRow.done_of_none (hl b hb)⟩
  exact List.pairwise_of_forall_mem_list fun a _ b hb => EventRow.done_of_none (hl b hb)

namespace Store

variable {s s' : Store} {id : String} {now : ℕ}

/-- What `receive_turn` checks before it queues a message: its request was not admitted. -/
def unseen (s : Store) (o : StoreOp × ℕ) : Prop :=
  match o.1 with
  | .enqueue _ r => ∀ q ∈ s.requests, q.id ≠ r.requestId
  | _ => True

instance (s : Store) (o : StoreOp × ℕ) : Decidable (s.unseen o) := by
  unfold unseen
  split <;> infer_instance

theorem unseen_of_checked {r : Submission} (h : s.alreadyAccepted id r = .ok false) :
    s.unseen (.enqueue id r, now) :=
  (alreadyAccepted_false h).1

/-- A message that can still be handed off was not the prompt of a turn, and after a prompt nothing
of its request is delivered. -/
structure Delivering (s : Store) : Prop where
  prompts : s.Prompts
  ledger : s.QueueLedger
  held : ∀ row ∈ s.messageQueue, row.held row.sessionId = true → ∀ e ∈ s.events,
    e.sessionId = row.sessionId → e.event.userRequest ≠ some row.requestId
  last : s.events.Pairwise EventRow.Done

/-- Rows that only move find no prompt of theirs where none is logged. -/
theorem held_moves {op : StoreOp} (h : s.Delivering)
    (hm : List.Forall₂ (Moves op) s.messageQueue s'.messageQueue) {l : List EventRow}
    (hevents : s'.events = s.events ++ l) (hl : ∀ row ∈ l, row.event.userRequest = none) :
    ∀ row ∈ s'.messageQueue, row.held row.sessionId = true → ∀ e ∈ s'.events,
      e.sessionId = row.sessionId → e.event.userRequest ≠ some row.requestId := by
  intro b hb hheld e he hsame
  obtain ⟨a, ha, hab⟩ := forall₂_source hm hb
  rw [hevents] at he
  rcases List.mem_append.1 he with he | he
  · rw [hab.requestId]
    rw [hab.sessionId] at hsame hheld
    exact h.held a ha (hab.held_of hheld) e he hsame
  · simp [hl e he]

/-- A request that was not admitted is no prompt of the log. -/
theorem Prompts.unlogged {requestId : String} (hp : s.Prompts)
    (h : ∀ row ∈ s.requests, row.id ≠ requestId) :
    ∀ e ∈ s.events, e.event.userRequest ≠ some requestId := by
  intro e he hreq
  have hmem : requestId ∈ s.userRequests := List.mem_filterMap.2 ⟨e, he, hreq⟩
  rw [hp.logged, List.mem_map] at hmem
  obtain ⟨row, hrow, hid⟩ := hmem
  exact h row hrow hid

/-- A started turn takes the message it is of out of the queue, and nothing of its request was its
prompt before. -/
theorem begin_delivering (h : s.Delivering) {r : Submission} (hs : s.apply (.begin id r, now) = .ok s') :
    s'.Delivering := by
  refine ⟨apply_prompts h.prompts hs, apply_ledger h.ledger hs, ?_, ?_⟩ <;>
    simp only [apply, map_eq_ok] at hs <;>
    obtain ⟨⟨t, new⟩, hs, rfl⟩ := hs <;>
    obtain ⟨_, rfl, _⟩ | ⟨_, ha, x, _, _, _, rfl⟩ := beginTurn_cases hs
  · exact h.held
  · intro b hb hheld e he hsame
    obtain ⟨a, hmem, rfl⟩ := List.mem_map.1 hb
    simp only [insertEvent_events, List.mem_append, List.mem_singleton] at he
    by_cases hd : dispatchedBy id r.requestId a = true
    · simp [hd, QueueRow.held] at hheld
    · simp only [hd, Bool.false_eq_true, if_false] at hheld hsame ⊢
      rcases he with (he | rfl) | rfl
      · exact h.held a hmem hheld e he hsame
      · rintro hreq
        refine hd ?_
        simp only [QueueRow.held, Bool.and_eq_true] at hheld
        simp only [EventKind.userRequest, Option.some.injEq] at hreq
        simp only [dispatchedBy, ← hreq, ← hsame, decide_true, Bool.true_and]
        exact hheld.2
      · simp [EventKind.userRequest]
  · exact h.last
  · rw [insertEvent_events, insertEvent_events]
    refine last_append (List.pairwise_append.2 ⟨h.last, List.pairwise_singleton _ _, ?_⟩)
      (by simp [EventKind.delivery])
    intro a hmem b hb _ requestId hreq d hd
    obtain rfl := List.mem_singleton.1 hb
    obtain rfl : (r.requestId, r.text) = d := by simpa [EventKind.delivery] using hd
    rintro rfl
    exact h.prompts.unlogged (alreadyAccepted_false ha).1 a hmem hreq

/-- A hand-off is of a message that was not the prompt of a turn. -/
theorem mark_delivering (h : s.Delivering) {requestId : String} {revision : ℕ}
    (hs : s.apply (.markForwarded id requestId revision, now) = .ok s') : s'.Delivering := by
  obtain ⟨hm, -⟩ | ⟨_, _, ho, -⟩ := apply_moves h.ledger hs
  · refine ⟨apply_prompts h.prompts hs, apply_ledger h.ledger hs, ?_, ?_⟩ <;>
      obtain ⟨row, hrow, hid, _, hst, _, rfl⟩ := markForwarded_cases hs
    · exact held_moves h hm rfl (by simp [EventKind.userRequest])
    · refine List.pairwise_append.2 ⟨h.last, List.pairwise_singleton _ _, ?_⟩
      intro a hmem b hb hsame q hreq d hd
      obtain rfl := List.mem_singleton.1 hb
      obtain rfl : (row.data.requestId, row.data.text) = d := by simpa [EventKind.delivery] using hd
      rintro rfl
      rw [h.ledger.named row hrow] at hreq
      exact h.held row hrow (by simp [QueueRow.held, hst]) a hmem (hsame.trans hid.symm) hreq
  · cases ho

/-- What the database does keeps the deliveries of a request before its prompt. -/
theorem apply_delivering {o : StoreOp × ℕ} (h : s.Delivering) (hu : s.unseen o)
    (hs : s.apply o = .ok s') : s'.Delivering := by
  by_cases hb : ∃ id r, o.1 = .begin id r
  · obtain ⟨op, now⟩ := o
    obtain ⟨id, r, rfl⟩ := hb
    exact begin_delivering h hs
  by_cases hm : ∃ id q n, o.1 = .markForwarded id q n
  · obtain ⟨op, now⟩ := o
    obtain ⟨id, q, n, rfl⟩ := hm
    exact mark_delivering h hs
  obtain ⟨l, hl, _, _, hagent⟩ := apply_logged hs (fun id r e => hb ⟨id, r, e⟩)
    fun id q n e => hm ⟨id, q, n, e⟩
  have hprompts := fun row hrow => (delivery_fromAgent (hagent row hrow)).2
  refine ⟨apply_prompts h.prompts hs, apply_ledger h.ledger hs, ?_, ?_⟩
  · obtain ⟨hmoves, -⟩ | ⟨id, r, ho, _, hqueue, -⟩ := apply_moves h.ledger hs
    · exact held_moves h hmoves hl hprompts
    · intro row hrow hheld e he hsame
      rw [hl] at he
      rcases List.mem_append.1 he with he | he
      · rw [hqueue] at hrow
        rcases List.mem_append.1 hrow with hrow | hrow
        · exact h.held row hrow hheld e he hsame
        · obtain rfl := List.mem_singleton.1 hrow
          rw [unseen, ho] at hu
          exact h.prompts.unlogged hu e he
      · simp [hprompts e he]
  · rw [hl]
    exact last_append h.last fun row hrow => (delivery_fromAgent (hagent row hrow)).1

theorem empty_delivering (projects : List Project) : (Store.empty projects).Delivering :=
  ⟨empty_prompts projects, empty_ledger projects, by simp [empty], List.Pairwise.nil⟩

theorem after_delivering {projects : List Project} {ops : List (StoreOp × ℕ)}
    (h : Runs.Throughout step unseen (Store.empty projects) ops) :
    ((Store.empty projects).after ops).Delivering :=
  Runs.throughout_keeps (P := Delivering)
    (fun _ _ hd hu => Runs.attempt_keeps (fun _ hs => apply_delivering hd hu hs) hd)
    (empty_delivering projects) h

/-- The log of a session as the transcript is given it. -/
def transcriptLog (s : Store) (id : String) : List Event :=
  (s.sessionLog id).map fun row =>
    { seq := row.seq, sessionId := id, atMs := row.atMs, event := row.event }

/-- Deliveries and what is seen of them, over every run: each delivered text of a session is seen
once, exactly when every text that was handed off is its request's first or was a prompt. -/
theorem delivered_texts (projects : List Project) (ops : List (StoreOp × ℕ))
    (hops : Runs.Throughout step unseen (Store.empty projects) ops) (id : String) :
    let log := ((Store.empty projects).after ops).transcriptLog id
    (∀ e ∈ log, ∀ requestId text, e.event.delivery = some (requestId, text) →
      (shownTexts log requestId).count text = 1) ↔
    ∀ requestId, ∀ text ∈ handedTexts log requestId,
      (handedTexts log requestId).head? = some text ∨ text ∈ executedTexts log requestId := by
  intro log
  have hordered := after_ordered projects ops
  have hlast : (((Store.empty projects).after ops).sessionLog id).Pairwise EventRow.Done := by
    rw [sessionLog_eq hordered]
    exact (after_delivering hops).last.filter _
  have hid : ∀ row ∈ ((Store.empty projects).after ops).sessionLog id, row.sessionId = id := by
    rw [sessionLog_eq hordered]
    exact fun row hrow => by simpa using (List.mem_filter.1 hrow).2
  refine @shown_once_iff log id (fun e he => ?_) ?_ ?_
  · obtain ⟨row, -, rfl⟩ := List.mem_map.1 he
    rfl
  · exact List.pairwise_map.2 (sessionLog_ordered hordered id)
  · refine List.pairwise_map.2 (hlast.imp_of_mem fun {a b} ha hb hdone requestId hreq => ?_)
    have hd := hdone ((hid a ha).trans (hid b hb).symm) requestId hreq
    rw [Event.delivers, Option.any_eq_false_iff_get]
    exact fun hsome => by simpa using hd _ (Option.get_mem hsome)

def sent (requestId text : String) : Submission where
  requestId
  text
  model := none
  effort := none
  fingerprint := none
  permissionMode := none

/-- A message is handed off, rejected and edited. -/
def rewritten : List (StoreOp × ℕ) :=
  [(.createSession "s" "p" "claude", 0), (.begin "s" (sent "t" "go"), 1),
    (.enqueue "s" (sent "r" "a"), 2), (.markForwarded "s" "r" 0, 3),
    (.rejectForwarded "s" "r" "no", 4), (.edit "s" "r" 1 (some "b"), 5)]

/-- Its text is then the prompt of a turn. -/
theorem delivered_texts_started :
    let log := ((Store.empty oneProject).after
      (rewritten ++ [(.state "s" .completed none, 6), (.begin "s" (sent "r" "b"), 7)])).transcriptLog "s"
    handedTexts log "r" = ["a"] ∧ executedTexts log "r" = ["b"] ∧
      ∀ e ∈ log, ∀ requestId text, e.event.delivery = some (requestId, text) →
        (shownTexts log requestId).count text = 1 := by
  refine ⟨by decide +kernel, by decide +kernel,
    (delivered_texts oneProject _ (by decide +kernel) "s").2 fun requestId text h => ?_⟩
  obtain ⟨e, he, hsent⟩ := List.mem_filterMap.1 h
  split at hsent
  · rename_i said q hk
    obtain ⟨rfl, rfl⟩ : q = requestId ∧ said = text := by simpa using hsent
    obtain ⟨rfl, rfl⟩ : q = "r" ∧ said = "a" := by
      have hall : (((Store.empty oneProject).after
          (rewritten ++ [(.state "s" .completed none, 6), (.begin "s" (sent "r" "b"), 7)])).transcriptLog
            "s").all (fun e => match e.event with
              | .queuedMessageSent said q => q = "r" && said = "a"
              | _ => true) = true := by decide +kernel
      simpa [hk] using List.all_eq_true.1 hall e he
    exact .inl (by decide +kernel)
  · cases hsent

/-- Its text is then handed off again, and taken by the running turn. -/
def handedAgain : List (StoreOp × ℕ) :=
  rewritten ++ [(.markForwarded "s" "r" 2, 6), (.consumeForwarded "s" ["r"], 7)]

/-- The text the agent was given last is not seen. -/
theorem handed_again_hidden :
    let log := ((Store.empty oneProject).after handedAgain).transcriptLog "s"
    Runs.Throughout step unseen (Store.empty oneProject) handedAgain ∧
      (log.getLast?.bind fun e => e.event.delivery) = some ("r", "b") ∧
      shownTexts log "r" = ["a"] := by
  refine ⟨by decide +kernel, by decide +kernel, by decide +kernel⟩

end Store

end LatteWork
