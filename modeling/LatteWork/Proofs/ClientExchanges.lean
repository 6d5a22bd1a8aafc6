import LatteWork.Client.Exchange

/-!
# Responses go to their requests

A client that is not broken has read the answer to every line it has sent, so the next answer is the
one to the next line. An exchange that does not end so leaves the client broken for good, and nothing
is sent after it. A call that takes a provider has one request that runs something.
-/

namespace LatteWork

namespace Client

/-! ### What a call may still send -/

/-- No more than `n` requests of a kind are behind a point of a call. -/
def Script.AtMost (p : Request → Bool) : Script → ℕ → Prop
  | .done _, _ => True
  | .request sent next, n =>
    (if p sent then 1 else 0) ≤ n ∧ ∀ r, (next r).AtMost p (n - if p sent then 1 else 0)
  | .resolve _ next, n => ∀ r, (next r).AtMost p n

def Task.AtMost (p : Request → Bool) : Task → ℕ → Prop
  | .ready script, n => script.AtMost p n
  | .exchanging _ _ next, n => ∀ r, (next r).AtMost p n
  | .cancelled, _ => True

theorem Script.AtMost.mono {p : Request → Bool} : ∀ {script : Script} {m n : ℕ},
    script.AtMost p m → m ≤ n → script.AtMost p n
  | .done _, _, _, _, _ => trivial
  | .request _ _, _, _, h, hle =>
    ⟨h.1.trans hle, fun r => (h.2 r).mono (Nat.sub_le_sub_right hle _)⟩
  | .resolve _ _, _, _, h, hle => fun r => (h r).mono hle

/-- The request with its provider is one that runs something, or none of them is. -/
theorem requestWithSnapshot_atMost (request : Request) (snapshot : Option ProviderSnapshot) :
    (requestWithSnapshot request snapshot).AtMost Request.executes 1 := by
  unfold requestWithSnapshot
  split
  · trivial
  · rename_i sent _
    refine ⟨?_, fun r => ?_⟩
    · split_ifs <;> omega
    · cases r <;> trivial

theorem resolveAndRequest_atMost (request : Request) (agent : String) :
    (resolveAndRequest request agent).AtMost Request.executes 1 := by
  intro r
  cases r with
  | error e => trivial
  | ok snapshot => exact requestWithSnapshot_atMost request snapshot

/-- The lookup runs nothing, whatever comes back of it. -/
theorem requestWithAppProvider_atMost (request : Request) :
    (requestWithAppProvider request).AtMost Request.executes 1 := by
  unfold requestWithAppProvider
  split
  · exact resolveAndRequest_atMost _ _
  · refine ⟨Nat.zero_le _, fun r => ?_⟩
    cases r with
    | error e => trivial
    | ok response =>
      cases response with
      | session session => exact resolveAndRequest_atMost _ _
      | _ => trivial
  · trivial

/-! ### What a step does -/

variable {τ : Type} [DecidableEq τ] {c : Codec} {s : State τ}

def Task.idle : Task → Prop
  | .exchanging .. => False
  | _ => True

/-- A step of the client, a call or the bridge. -/
inductive Move (c : Codec) (s : State τ) : State τ → Prop where
  | still : Move c s s
  | idle {t : τ} {script : Script} {task : Task} : s.tasks t = .ready script →
      (∀ p n, script.AtMost p n → task.AtMost p n) → task.idle → Move c s (s.setTask t task)
  | unsent {t : τ} {request : Request} {next : Except String Response → Script} {e : String} :
      s.holder = none → s.broken = false → s.tasks t = .ready (.request request next) →
      Move c s ({ s with broken := true, begun := s.begun ++ [(t, request)] }.abandon t s.begun.length
        (.ready (next (.error e))))
  | begin {t : τ} {request : Request} {next : Except String Response → Script}
      {data : List UInt8} :
      s.holder = none → s.broken = false → s.tasks t = .ready (.request request next) →
      c.encode request = .ok data →
      Move c s ({ s with broken := true, begun := s.begun ++ [(t, request)]
                         holder := some t }.setTask t
        (.exchanging s.begun.length (.writing (data ++ [lineFeed])) next))
  | abandon {t : τ} {id taken : ℕ} {stage : Stage} {next : Except String Response → Script}
      {task : Task} : s.tasks t = .exchanging id stage next →
      (∀ p n, (∀ r, (next r).AtMost p n) → task.AtMost p n) → task.idle →
      Move c s ({ s with taken := taken }.abandon t id task)
  | write {t : τ} {id n : ℕ} {rest : List UInt8} {next : Except String Response → Script} :
      s.tasks t = .exchanging id (.writing rest) next → Move c s (s.write t id rest n next)
  | flush {t : τ} {id : ℕ} {next : Except String Response → Script} :
      s.tasks t = .exchanging id .flushing next →
      Move c s (s.setTask t (.exchanging id .reading next))
  | returned {t : τ} {id : ℕ} {text : List UInt8} {response : Response}
      {next : Except String Response → Script} : s.tasks t = .exchanging id .reading next →
      s.answers[s.taken]? = some text → c.decode text = .ok response →
      Move c s ({ s with
          taken := s.taken + 1, broken := false, holder := none
          returned := s.returned ++ [Returned.mk id s.taken response] }.setTask t
        (.ready (next (.ok response))))
  | answer {text : List UInt8} : s.answers.length < (bridgeLines s.sent).length →
      Move c s { s with answers := s.answers ++ [text] }

theorem atMost_next {p : Request → Bool} {request : Request}
    {next : Except String Response → Script} (r : Except String Response) {n : ℕ}
    (h : (Script.request request next).AtMost p n) : (next r).AtMost p n :=
  (h.2 r).mono (Nat.sub_le _ _)

theorem request_move {t : τ} {request : Request} {next : Except String Response → Script}
    (hholder : s.holder = none) (ht : s.tasks t = .ready (.request request next)) :
    Move c s (s.request c t request next) := by
  unfold State.request
  split_ifs with hbroken hrefused
  · exact .idle ht (fun _ _ h => atMost_next _ h) trivial
  · exact .idle ht (fun _ _ h => atMost_next _ h) trivial
  · rw [Bool.not_eq_true] at hbroken
    unfold State.begin
    dsimp only
    split
    · exact .unsent hholder hbroken ht
    · split_ifs
      · exact .unsent hholder hbroken ht
      · rename_i data hdata _
        exact .begin hholder hbroken ht hdata

theorem step_move (c : Codec) (s : State τ) (l : Label τ) : Move c s (s.step c l) := by
  cases l with
  | acquire t =>
    unfold State.step
    dsimp only
    split
    · rename_i hholder ht
      exact request_move hholder ht
    · exact .still
  | write t n =>
    unfold State.step
    dsimp only
    split
    · rename_i ht
      exact .write ht
    · exact .still
  | flush t =>
    unfold State.step
    dsimp only
    split
    · rename_i ht
      exact .flush ht
    · exact .still
  | read t =>
    unfold State.step
    dsimp only
    split
    · rename_i ht htext
      unfold State.read
      dsimp only
      split_ifs
      · exact .abandon ht (fun _ _ h => h _) trivial
      · split
        · exact .abandon ht (fun _ _ h => h _) trivial
        · rename_i hresponse
          exact .returned ht htext hresponse
    · exact .still
  | fail t message =>
    unfold State.step
    dsimp only
    split
    · rename_i ht
      exact .abandon ht (fun _ _ h => h _) trivial
    · exact .still
  | cancel t =>
    unfold State.step
    dsimp only
    split
    · rename_i ht
      exact .abandon ht (fun _ _ _ => trivial) trivial
    · rename_i ht
      exact .idle ht (fun _ _ _ => trivial) trivial
    · exact .still
  | resolve t provider =>
    unfold State.step
    dsimp only
    split
    · rename_i ht
      exact .idle ht (fun _ _ h => h _) trivial
    · exact .still
  | answer text =>
    unfold State.step
    dsimp only
    split_ifs with h
    · exact .answer h.1
    · exact .still

/-! ### Lines and answers -/

/-- Where an exchange is: its line is written in part, or it is the last one and not answered yet. -/
def Exchanging (c : Codec) (s : State τ) (data : List (List UInt8)) (part : List UInt8) (t : τ)
    (id : ℕ) : Stage → Prop
  | .writing rest => ∃ request line, s.begun[id]? = some (t, request) ∧
      c.encode request = .ok line ∧ part ++ rest = line ++ [lineFeed] ∧ rest ≠ [] ∧
        s.taken = data.length
  | _ => part = [] ∧ s.taken + 1 = data.length ∧ s.wrote[s.taken]? = some id

/-- The lines that were sent, with what is sent of one more, and the answers to them. -/
structure Inv (c : Codec) (s : State τ) (data : List (List UInt8)) (part : List UInt8) : Prop where
  sent : s.sent = Fields.join lineFeed data ++ part
  free : ∀ line ∈ data, lineFeed ∉ line
  part_free : lineFeed ∉ part
  wrote : List.Forall₂ (fun id line => ∃ b, s.begun[id]? = some b ∧ c.encode b.2 = .ok line)
    s.wrote data
  returned : ∀ r ∈ s.returned, s.wrote[r.line]? = some r.id ∧
    ∃ text, s.answers[r.line]? = some text ∧ c.decode text = .ok r.response
  answered : s.answers.length ≤ data.length
  held : ∀ t id stage next, s.tasks t = .exchanging id stage next → s.holder = some t
  whole : s.broken = false → s.holder = none ∧ part = [] ∧ s.taken = data.length
  busy : ∀ t id stage next, s.tasks t = .exchanging id stage next →
    s.broken = true ∧ s.failed = [] ∧ Exchanging c s data part t id stage
  dead : s.failed ≠ [] → s.broken = true ∧ s.holder = none

variable {data : List (List UInt8)} {part : List UInt8}

omit [DecidableEq τ] in
theorem Inv.bridgeLines (h : Inv c s data part) : Client.bridgeLines s.sent = data := by
  rw [Client.bridgeLines, h.sent, Fields.splitOn_join h.part_free h.free, List.dropLast_concat]

omit [DecidableEq τ] in
theorem Inv.length (h : Inv c s data part) : s.wrote.length = data.length := h.wrote.length_eq

@[simp]
theorem setTask_self (s : State τ) (t : τ) (task : Task) : (s.setTask t task).tasks t = task := by
  simp [State.setTask]

theorem setTask_cases {t u : τ} {task : Task} {id : ℕ} {stage : Stage}
    {next : Except String Response → Script}
    (h : (s.setTask t task).tasks u = .exchanging id stage next) :
    (u = t ∧ task = .exchanging id stage next) ∨ (u ≠ t ∧ s.tasks u = .exchanging id stage next) := by
  by_cases hu : u = t
  · subst hu
    rw [setTask_self] at h
    exact .inl ⟨rfl, h⟩
  · rw [State.setTask] at h
    dsimp only at h
    rw [if_neg hu] at h
    exact .inr ⟨hu, h⟩

omit [DecidableEq τ] in
/-- Only the holder is in an exchange. -/
theorem Inv.alone (h : Inv c s data part) {t u : τ} {id id' : ℕ} {stage stage' : Stage}
    {next next' : Except String Response → Script} (ht : s.tasks t = .exchanging id stage next)
    (hu : s.tasks u = .exchanging id' stage' next') : u = t :=
  Option.some.inj ((h.held u _ _ _ hu).symm.trans (h.held t _ _ _ ht))

theorem Task.not_idle {id : ℕ} {stage : Stage} {next : Except String Response → Script} {task : Task}
    (h : task.idle) : task ≠ .exchanging id stage next := by
  rintro rfl
  exact h

/-- A call that is in no exchange goes on. -/
theorem Inv.setIdle (h : Inv c s data part) {t : τ} {task : Task} (htask : task.idle) :
    Inv c (s.setTask t task) data part := by
  have hold : ∀ {u id stage next}, (s.setTask t task).tasks u = .exchanging id stage next →
      s.tasks u = .exchanging id stage next := by
    intro u id stage next hu
    rcases setTask_cases hu with ⟨-, hcontra⟩ | ⟨-, hu⟩
    · exact absurd hcontra (Task.not_idle htask)
    · exact hu
  exact { h with
    held := fun u id stage next hu => h.held u id stage next (hold hu)
    busy := fun u id stage next hu => h.busy u id stage next (hold hu) }

/-- An exchange is given up: what was sent of its line is all that will be. -/
theorem Inv.abandon (h : Inv c s data part) {t : τ} {id : ℕ} {task : Task} (htask : task.idle)
    (hbroken : s.broken = true)
    (hothers : ∀ u id stage next, s.tasks u = .exchanging id stage next → u = t) (taken : ℕ) :
    Inv c ({ s with taken := taken }.abandon t id task) data part := by
  have hnone : ∀ {u id' stage next}, (s.abandon t id task).tasks u ≠ .exchanging id' stage next := by
    intro u id' stage next hu
    rcases setTask_cases hu with ⟨-, hcontra⟩ | ⟨hne, hu⟩
    · exact Task.not_idle htask hcontra
    · exact hne (hothers u _ _ _ hu)
  exact { h with
    held := fun u id stage next hu => absurd hu hnone
    whole := fun hfalse => absurd (hbroken.symm.trans hfalse) (by decide)
    busy := fun u id stage next hu => absurd hu hnone
    dead := fun _ => ⟨hbroken, rfl⟩ }

omit [DecidableEq τ] in
/-- A client that is not broken is in no exchange, and no exchange of it has failed. -/
theorem Inv.quiet (h : Inv c s data part) (hbroken : s.broken = false) :
    s.failed = [] ∧ ∀ u id stage next, s.tasks u ≠ .exchanging id stage next := by
  constructor
  · by_contra hfailed
    rw [(h.dead hfailed).1] at hbroken
    cases hbroken
  · intro u id stage next hu
    rw [(h.busy u id stage next hu).1] at hbroken
    cases hbroken

omit [DecidableEq τ] in
/-- An exchange begins. -/
theorem Inv.began (h : Inv c s data part) (hbroken : s.broken = false) (b : τ × Request) :
    Inv c { s with broken := true, begun := s.begun ++ [b] } data part := by
  obtain ⟨hfailed, hnone⟩ := h.quiet hbroken
  exact { h with
    wrote := h.wrote.imp fun id line ⟨b', hb', hline⟩ =>
      ⟨b', by
        rw [List.getElem?_append_left (List.getElem?_eq_some_iff.1 hb').1]
        exact hb', hline⟩
    whole := fun hfalse => by cases hfalse
    busy := fun u id stage next hu => absurd hu (hnone u id stage next)
    dead := fun hne => absurd hfailed hne }

/-- The line of an exchange is going to be written. -/
theorem Inv.begin (h : Inv c s data part) (hbroken : s.broken = false) {t : τ} {request : Request}
    {line : List UInt8} (hline : c.encode request = .ok line)
    (next : Except String Response → Script) :
    Inv c ({ s with broken := true, begun := s.begun ++ [(t, request)], holder := some t }.setTask t
      (.exchanging s.begun.length (.writing (line ++ [lineFeed])) next)) data part := by
  obtain ⟨hfailed, hnone⟩ := h.quiet hbroken
  obtain ⟨-, hpart, htaken⟩ := h.whole hbroken
  have hb := h.began hbroken (t, request)
  exact { hb with
    held := by
      intro u id stage next' hu
      rcases setTask_cases hu with ⟨rfl, -⟩ | ⟨-, hu⟩
      · rfl
      · exact absurd hu (hnone u id stage next')
    whole := fun hfalse => by cases hfalse
    busy := by
      intro u id stage next' hu
      rcases setTask_cases hu with ⟨rfl, heq⟩ | ⟨-, hu⟩
      · cases heq
        refine ⟨rfl, hfailed, request, line, ?_, hline, ?_, by simp, htaken⟩
        · exact List.getElem?_concat_length
        · rw [hpart, List.nil_append]
      · exact absurd hu (hnone u id stage next')
    dead := fun hne => absurd hfailed hne }

omit [DecidableEq τ] in
/-- What is in front of more of a line is no whole line. -/
theorem not_mem_front {part rest line : List UInt8} (h : part ++ rest = line ++ [lineFeed])
    (hrest : rest ≠ []) (hline : lineFeed ∉ line) : lineFeed ∉ part := by
  rcases List.eq_nil_or_concat rest with rfl | ⟨front, last, rfl⟩
  · exact absurd rfl hrest
  · rw [List.concat_eq_append, ← List.append_assoc] at h
    obtain ⟨rfl, -⟩ := List.append_inj' h rfl
    exact fun hmem => hline (List.mem_append_left front hmem)

/-- Some bytes of a line are written, or its last ones. -/
theorem Inv.write (h : Inv c s data part)
    (hcodec : ∀ request line, c.encode request = .ok line → lineFeed ∉ line) {t : τ} {id n : ℕ}
    {rest : List UInt8} {next : Except String Response → Script}
    (ht : s.tasks t = .exchanging id (.writing rest) next) :
    ∃ data' part', Inv c (s.write t id rest n next) data' part' := by
  obtain ⟨hbroken, hfailed, request, line, hbegun, hline, hparts, hrest, htaken⟩ :=
    h.busy t id _ next ht
  have hfree := hcodec request line hline
  unfold State.write
  dsimp only
  split_ifs with hlast
  · refine ⟨data ++ [line], [], ?_⟩
    have hlength := h.length
    exact { h with
      sent := by
        rw [List.take_of_length_le hlast, Fields.join_append, List.append_nil]
        simp only [State.setTask]
        rw [h.sent, List.append_assoc, hparts]
        simp [Fields.join]
      free := by
        intro l hl
        rcases List.mem_append.1 hl with hl | hl
        · exact h.free l hl
        · rwa [List.mem_singleton.1 hl]
      part_free := List.not_mem_nil
      wrote := List.rel_append h.wrote (.cons ⟨_, hbegun, hline⟩ .nil)
      returned := by
        intro r hr
        obtain ⟨hwrote, htext⟩ := h.returned r hr
        refine ⟨?_, htext⟩
        have hlt := (List.getElem?_eq_some_iff.1 hwrote).1
        exact (List.getElem?_append_left hlt).trans hwrote
      answered := by
        rw [List.length_append]
        exact Nat.le_add_right_of_le h.answered
      held := by
        intro u id' stage next' hu
        rcases setTask_cases hu with ⟨rfl, -⟩ | ⟨-, hu⟩
        · exact h.held u _ _ _ ht
        · exact h.held u _ _ _ hu
      whole := fun hfalse => absurd (hbroken.symm.trans hfalse) (by decide)
      busy := by
        intro u id' stage next' hu
        rcases setTask_cases hu with ⟨rfl, heq⟩ | ⟨hne, hu⟩
        · cases heq
          refine ⟨hbroken, hfailed, rfl, ?_, ?_⟩
          · rw [List.length_append]
            exact congrArg (· + 1) htaken
          · have hat : s.taken = s.wrote.length := htaken.trans hlength.symm
            simp only [State.setTask]
            rw [hat]
            exact List.getElem?_concat_length
        · exact absurd (h.alone ht hu) hne }
  · refine ⟨data, part ++ rest.take n, ?_⟩
    have hdrop : rest.drop n ≠ [] := by
      rw [Ne, List.drop_eq_nil_iff]
      exact hlast
    have hsame : (part ++ rest.take n) ++ rest.drop n = line ++ [lineFeed] := by
      rw [List.append_assoc, List.take_append_drop, hparts]
    exact { h with
      sent := by
        simp only [State.setTask]
        rw [h.sent, List.append_assoc]
      part_free := not_mem_front hsame hdrop hfree
      held := by
        intro u id' stage next' hu
        rcases setTask_cases hu with ⟨rfl, -⟩ | ⟨-, hu⟩
        · exact h.held u _ _ _ ht
        · exact h.held u _ _ _ hu
      whole := fun hfalse => absurd (hbroken.symm.trans hfalse) (by decide)
      busy := by
        intro u id' stage next' hu
        rcases setTask_cases hu with ⟨rfl, heq⟩ | ⟨hne, hu⟩
        · cases heq
          exact ⟨hbroken, hfailed, request, line, hbegun, hline, hsame, hdrop, htaken⟩
        · exact absurd (h.alone ht hu) hne }

theorem Inv.flush (h : Inv c s data part) {t : τ} {id : ℕ}
    {next : Except String Response → Script} (ht : s.tasks t = .exchanging id .flushing next) :
    Inv c (s.setTask t (.exchanging id .reading next)) data part :=
  { h with
    held := by
      intro u id' stage next' hu
      rcases setTask_cases hu with ⟨rfl, -⟩ | ⟨-, hu⟩
      · exact h.held u _ _ _ ht
      · exact h.held u _ _ _ hu
    busy := by
      intro u id' stage next' hu
      rcases setTask_cases hu with ⟨rfl, heq⟩ | ⟨hne, hu⟩
      · cases heq
        exact h.busy u _ _ _ ht
      · exact absurd (h.alone ht hu) hne }

/-- The answer that is read is the one to the last line, which is that of the exchange. -/
theorem Inv.return (h : Inv c s data part) {t : τ} {id : ℕ} {text : List UInt8} {response : Response}
    {next : Except String Response → Script} (ht : s.tasks t = .exchanging id .reading next)
    (htext : s.answers[s.taken]? = some text) (hresponse : c.decode text = .ok response) :
    Inv c ({ s with
      taken := s.taken + 1, broken := false, holder := none
      returned := s.returned ++ [Returned.mk id s.taken response] }.setTask t
        (.ready (next (.ok response)))) data part := by
  obtain ⟨hbroken, hfailed, hpart, htaken, hwrote⟩ := h.busy t id _ next ht
  have hnone : ∀ u id' stage next', (s.setTask t (.ready (next (.ok response)))).tasks u ≠
      .exchanging id' stage next' := by
    intro u id' stage next' hu
    rcases setTask_cases hu with ⟨-, heq⟩ | ⟨hne, hu⟩
    · cases heq
    · exact hne (h.alone ht hu)
  exact { h with
    returned := by
      intro r hr
      rcases List.mem_append.1 hr with hr | hr
      · exact h.returned r hr
      · rw [List.mem_singleton.1 hr]
        exact ⟨hwrote, text, htext, hresponse⟩
    held := fun u id stage next' hu => absurd hu (hnone u id stage next')
    whole := fun _ => ⟨rfl, hpart, htaken⟩
    busy := fun u id stage next' hu => absurd hu (hnone u id stage next')
    dead := fun hne => absurd hfailed hne }

omit [DecidableEq τ] in
theorem Inv.answer (h : Inv c s data part) {text : List UInt8}
    (hlength : s.answers.length < (Client.bridgeLines s.sent).length) :
    Inv c { s with answers := s.answers ++ [text] } data part := by
  rw [h.bridgeLines] at hlength
  exact { h with
    returned := by
      intro r hr
      obtain ⟨hwrote, text, htext, hresponse⟩ := h.returned r hr
      have hlt := (List.getElem?_eq_some_iff.1 htext).1
      exact ⟨hwrote, text, (List.getElem?_append_left hlt).trans htext, hresponse⟩
    answered := by
      rw [List.length_append]
      exact hlength }

/-- Every step keeps the lines and their answers together. -/
theorem Inv.step (h : Inv c s data part)
    (hcodec : ∀ request line, c.encode request = .ok line → lineFeed ∉ line) (l : Label τ) :
    ∃ data' part', Inv c (s.step c l) data' part' := by
  have hmove := step_move c s l
  generalize s.step c l = s' at hmove ⊢
  cases hmove with
  | still => exact ⟨data, part, h⟩
  | idle _ _ htask => exact ⟨data, part, h.setIdle htask⟩
  | @unsent t request next e hholder hbroken ht =>
    have hidle : (Task.ready (next (.error e))).idle := trivial
    refine ⟨data, part, (h.began hbroken (t, request)).abandon hidle rfl ?_ s.taken⟩
    exact fun u id stage next hu => absurd hu ((h.quiet hbroken).2 u id stage next)
  | begin hholder hbroken ht hline => exact ⟨data, part, h.begin hbroken hline _⟩
  | abandon ht _ htask =>
    exact ⟨data, part, h.abandon htask (h.busy _ _ _ _ ht).1 (fun u _ _ _ hu => h.alone ht hu) _⟩
  | write ht => exact h.write hcodec ht
  | flush ht => exact ⟨data, part, h.flush ht⟩
  | returned ht htext hresponse => exact ⟨data, part, h.return ht htext hresponse⟩
  | answer hlength => exact ⟨data, part, h.answer hlength⟩

omit [DecidableEq τ] in
theorem start_inv (c : Codec) (permissionSettings : Bool) (calls : τ → Script) :
    Inv c (State.start permissionSettings calls) [] [] where
  sent := rfl
  free := by simp
  part_free := List.not_mem_nil
  wrote := .nil
  returned := fun r hr => by cases hr
  answered := Nat.le_refl _
  held := fun t id stage next h => by cases h
  whole := fun _ => ⟨rfl, rfl, rfl⟩
  busy := fun t id stage next h => by cases h
  dead := fun h => absurd rfl h

theorem run_inv (hcodec : ∀ request line, c.encode request = .ok line → lineFeed ∉ line)
    (permissionSettings : Bool) (calls : τ → Script) (labels : List (Label τ)) :
    ∃ data part, Inv c ((State.start permissionSettings calls).run c labels) data part :=
  Runs.run_keeps (P := fun s => ∃ data part, Inv c s data part)
    ⟨[], [], start_inv c permissionSettings calls⟩ (fun _ l ⟨_, _, h⟩ => h.step hcodec l) labels

/-- After an exchange that failed or was cancelled nothing is sent. -/
theorem Inv.silent (h : Inv c s data part) (hfailed : s.failed ≠ []) (l : Label τ) :
    (s.step c l).sent = s.sent ∧ (s.step c l).failed ≠ [] := by
  have hbusy : ∀ {t id stage next}, s.tasks t ≠ .exchanging id stage next :=
    fun ht => hfailed (h.busy _ _ _ _ ht).2.1
  have hbroken : s.broken ≠ false := by simp [(h.dead hfailed).1]
  have hmove := step_move c s l
  generalize s.step c l = s' at hmove ⊢
  cases hmove with
  | still => exact ⟨rfl, hfailed⟩
  | idle _ _ _ => exact ⟨rfl, hfailed⟩
  | unsent _ hfalse _ => exact absurd hfalse hbroken
  | begin _ hfalse _ _ => exact absurd hfalse hbroken
  | abandon ht _ _ => exact absurd ht hbusy
  | write ht => exact absurd ht hbusy
  | flush ht => exact absurd ht hbusy
  | returned ht _ _ => exact absurd ht hbusy
  | answer _ => exact ⟨rfl, hfailed⟩

theorem run_silent (hcodec : ∀ request line, c.encode request = .ok line → lineFeed ∉ line) :
    ∀ (more : List (Label τ)) {s : State τ}, (∃ data part, Inv c s data part) → s.failed ≠ [] →
      (s.run c more).sent = s.sent
  | [], _, _, _ => rfl
  | l :: more, s, ⟨_, _, h⟩, hfailed => by
    obtain ⟨hsent, hfailed'⟩ := h.silent hfailed l
    exact (run_silent hcodec more (h.step hcodec l) hfailed').trans hsent

/-! ### What a call sends -/

/-- What a call has begun and what it may still send are within a bound. -/
def Within (p : Request → Bool) (s : State τ) (t : τ) (n : ℕ) : Prop :=
  ∃ m, (s.tasks t).AtMost p m ∧ s.begun.countP (fun b => b.1 = t && p b.2) + m ≤ n

theorem within_setTask {p : Request → Bool} {t u : τ} {n : ℕ} {task : Task}
    (h : Within p s u n) (htask : ∀ m, (s.tasks t).AtMost p m → task.AtMost p m) :
    Within p (s.setTask t task) u n := by
  obtain ⟨m, hm, hle⟩ := h
  refine ⟨m, ?_, hle⟩
  by_cases hu : u = t
  · subst hu
    rw [setTask_self]
    exact htask m hm
  · rw [State.setTask]
    dsimp only
    rwa [if_neg hu]

/-- One more request of a call is begun, and one less may follow. -/
theorem within_begun {p : Request → Bool} {t u : τ} {n : ℕ} {request : Request}
    {next : Except String Response → Script} {task : Task} (h : Within p s u n)
    (ht : s.tasks t = .ready (.request request next))
    (htask : ∀ m, (∀ r, (next r).AtMost p m) → task.AtMost p m) :
    Within p ({ s with begun := s.begun ++ [(t, request)] }.setTask t task) u n := by
  obtain ⟨m, hm, hle⟩ := h
  by_cases hu : u = t
  · subst hu
    rw [ht] at hm
    obtain ⟨hone, hnext⟩ := hm
    refine ⟨m - if p request then 1 else 0, ?_, ?_⟩
    · rw [setTask_self]
      exact htask _ hnext
    · simp only [State.setTask, List.countP_append, List.countP_singleton, decide_true,
        Bool.true_and]
      omega
  · refine ⟨m, ?_, ?_⟩
    · rw [State.setTask]
      dsimp only
      rwa [if_neg hu]
    · simp only [State.setTask, List.countP_append, List.countP_singleton]
      simp [Ne.symm hu]
      exact hle

theorem within_step {p : Request → Bool} {u : τ} {n : ℕ} (h : Within p s u n) (l : Label τ) :
    Within p (s.step c l) u n := by
  have hkeep : ∀ {t id stage stage' next}, s.tasks t = .exchanging id stage next → ∀ m,
      (s.tasks t).AtMost p m → (Task.exchanging id stage' next).AtMost p m := by
    intro t id stage stage' next ht m hm
    rw [ht] at hm
    exact hm
  have hmove := step_move c s l
  generalize s.step c l = s' at hmove ⊢
  cases hmove with
  | still => exact h
  | idle ht htask _ =>
    refine within_setTask h fun m hm => ?_
    rw [ht] at hm
    exact htask p m hm
  | unsent _ _ ht => exact within_begun h ht fun m hm => hm _
  | begin _ _ ht _ => exact within_begun h ht fun m hm => hm
  | abandon ht htask _ =>
    refine within_setTask (s := { s with taken := _, holder := none, failed := _ }) h fun m hm => ?_
    exact htask p m (by
      have hold : (s.tasks _).AtMost p m := hm
      rwa [ht] at hold)
  | write ht =>
    unfold State.write
    dsimp only
    split_ifs
    · exact within_setTask (s := { s with sent := _, wrote := _ }) h (hkeep ht)
    · exact within_setTask (s := { s with sent := _ }) h (hkeep ht)
  | flush ht => exact within_setTask h (hkeep ht)
  | returned ht _ _ =>
    refine within_setTask (s := { s with taken := _, broken := _, holder := _, returned := _ }) h
      fun m hm => ?_
    have hold : (s.tasks _).AtMost p m := hm
    rw [ht] at hold
    exact hold _
  | answer _ => exact h

/-- Every response goes to the request that it answers, nothing is sent after an exchange that failed
or was cancelled, and a call that takes a provider sends at most one request that runs something. -/
theorem exchanges_paired (c : Codec)
    (hcodec : ∀ request line, c.encode request = .ok line → lineFeed ∉ line)
    (permissionSettings : Bool) (calls : τ → Script) (labels more : List (Label τ)) :
    let s := (State.start permissionSettings calls).run c labels
    (∀ r ∈ s.returned, ∃ b line text, s.begun[r.id]? = some b ∧ c.encode b.2 = .ok line ∧
        s.wrote[r.line]? = some r.id ∧ (bridgeLines s.sent)[r.line]? = some line ∧
        s.answers[r.line]? = some text ∧ c.decode text = .ok r.response) ∧
      (s.failed ≠ [] → (s.run c more).sent = s.sent) ∧
      ∀ t request, calls t = requestWithAppProvider request →
        s.begun.countP (fun b => b.1 = t && b.2.executes) ≤ 1 := by
  intro s
  have hinv := run_inv hcodec permissionSettings calls labels
  refine ⟨?_, run_silent hcodec more hinv, ?_⟩
  · obtain ⟨data, part, h⟩ := hinv
    intro r hr
    obtain ⟨hwrote, text, htext, hresponse⟩ := h.returned r hr
    obtain ⟨hlt, hid⟩ := List.getElem?_eq_some_iff.1 hwrote
    have hlt' : r.line < data.length := h.length ▸ hlt
    obtain ⟨b, hb, hline⟩ := List.Forall₂.get h.wrote hlt hlt'
    refine ⟨b, data[r.line], text, ?_, hline, hwrote, ?_, htext, hresponse⟩
    · rw [← hid]
      exact hb
    · rw [h.bridgeLines]
      exact List.getElem?_eq_getElem hlt'
  · intro t request hcall
    have hstart : Within Request.executes (State.start permissionSettings calls) t 1 := by
      refine ⟨1, ?_, Nat.le_refl _⟩
      have := requestWithAppProvider_atMost request
      rwa [← hcall] at this
    obtain ⟨m, -, hle⟩ := Runs.run_keeps (P := fun s : State τ => Within Request.executes s t 1) hstart
      (fun _ l h => within_step (c := c) h l) labels
    exact (Nat.le_add_right _ m).trans hle

def asciiBytes (s : String) : List UInt8 := s.toList.map fun c => UInt8.ofNat c.toNat

/-- What `serde_json` makes of two requests and one response. -/
def shortCodec : Codec where
  encode request :=
    if request = .other "projects" then .ok (asciiBytes "\x7b\"method\":\"projects\"\x7d")
    else if request = .session "s" then
      .ok (asciiBytes "\x7b\"method\":\"session\",\"session_id\":\"s\"\x7d")
    else .error "unsupported"
  decode text :=
    if text = asciiBytes "\x7b\"kind\":\"ok\"\x7d" then .ok .ok else .error "expected value"

/-- One call has its response, and another is cancelled within its lookup. -/
def shortRun : List (Label Bool) :=
  [.acquire false, .write false 5, .write false 99, .flush false,
    .answer (asciiBytes "\x7b\"kind\":\"ok\"\x7d"), .read false, .acquire true, .write true 7,
    .cancel true]

theorem exchanges_paired_short :
    let calls (t : Bool) : Script :=
      if t then requestWithAppProvider (.openAgentSession "s" none) else call (.other "projects")
    let s := (State.start true calls).run shortCodec shortRun
    (∀ r ∈ s.returned, ∃ b line text, s.begun[r.id]? = some b ∧ shortCodec.encode b.2 = .ok line ∧
        s.wrote[r.line]? = some r.id ∧ (bridgeLines s.sent)[r.line]? = some line ∧
        s.answers[r.line]? = some text ∧ shortCodec.decode text = .ok r.response) ∧
      (s.failed ≠ [] → (s.run shortCodec [.acquire false]).sent = s.sent) ∧
      ∀ t request, calls t = requestWithAppProvider request →
        s.begun.countP (fun b => b.1 = t && b.2.executes) ≤ 1 := by
  refine exchanges_paired shortCodec ?_ true _ shortRun [.acquire false]
  intro request line h
  simp only [shortCodec] at h
  split_ifs at h <;> cases h <;> decide

end Client

end LatteWork
