import LatteWork.Proofs.TraexItems

/-!
# A background command keeps the adapter busy

A command that was reported as in the background is waited for until a report of its own turn, or of
the exit of its process, says it has ended. In each turn a tool call is shown once, and a message with
its text once, when its deltas come before its completion (`commands_wait`).
-/

namespace LatteWork

namespace Traex

open Prog Assoc

/-- A completed command, as a notification reports it. -/
structure CommandReport where
  id : String
  thread : Option String
  turn : Option String
  status : Option String
  process : Option String
  exited : Bool

def reportOf (params : Json) (id : String) : CommandReport where
  id := id
  thread := (params.index "threadId").str?
  turn := (params.index "turnId").str?
  status := ((params.index "item").index "status").str?
  process := commandProcess (params.index "item")
  exited := ((params.index "item").index "exitCode").i64?.isSome

def commandReport : Input → Option CommandReport
  | .message (some m) =>
    if (m.index "method").str? = some "item/completed" ∧ (m.get? "id").isNone ∧
        (((m.index "params").index "item").index "type").str? = some "commandExecution" then
      (((m.index "params").index "item").index "id").str?.map (reportOf (m.index "params"))
    else none
  | _ => none

/-- The report is of the thread, and of the turn of its command: the one the command was first
reported in, or the running one. -/
def Own (a : Traex) (r : CommandReport) : Prop :=
  r.thread = a.thread ∧ r.turn ≠ none ∧
    r.turn = ((a.backgroundCommands.lookup r.id).map (·.turn)).or a.turn

instance (a : Traex) (r : CommandReport) : Decidable (a.Own r) := inferInstanceAs (Decidable (_ ∧ _ ∧ _))

/-- The input reports a command of a turn as in the background. -/
def Backgrounds (a : Traex) (i : Input) (id turn : String) : Prop :=
  ∃ r ∈ commandReport i, a.Own r ∧ r.id = id ∧ r.turn = some turn ∧ r.status = some "backgrounded"

/-- The input reports that a command has ended: the command itself in its turn, or a command with the
process of this one, and its exit code. -/
def Releases (a : Traex) (i : Input) (id : String) : Prop :=
  ∃ r ∈ commandReport i, a.Own r ∧ r.status ∈ [some "completed", some "failed"] ∧
    (r.id = id ∨ (r.exited = true ∧ r.process ≠ none ∧
      (a.backgroundCommands.lookup id).map (·.process) = some r.process))

instance (a : Traex) (i : Input) (id turn : String) : Decidable (a.Backgrounds i id turn) :=
  inferInstanceAs (Decidable (∃ r ∈ commandReport i, _))

instance (a : Traex) (i : Input) (id : String) : Decidable (a.Releases i id) :=
  inferInstanceAs (Decidable (∃ r ∈ commandReport i, _))

variable {a a' : Traex} {i : Input} {out : List Action} {r : CommandReport} {id turn : String}

/-! ## What a report does -/

/-- An item that a report is about. -/
structure Reports (r : CommandReport) (x : Json) : Prop where
  kind : (x.index "type").str? = some "commandExecution"
  status : r.status = (x.index "status").str?
  process : r.process = commandProcess x
  exited : r.exited = (x.index "exitCode").i64?.isSome

theorem commandReport_eq_some {m : Json} : commandReport (.message (some m)) = some r ↔
    (m.index "method").str? = some "item/completed" ∧ (m.get? "id").isNone = true ∧
      (((m.index "params").index "item").index "type").str? = some "commandExecution" ∧
      ∃ id, (((m.index "params").index "item").index "id").str? = some id ∧
        reportOf (m.index "params") id = r := by
  simp only [commandReport, Option.ite_none_right_eq_some, Option.map_eq_some_iff, and_assoc]

theorem reports_reportOf {params : Json}
    (h : ((params.index "item").index "type").str? = some "commandExecution") :
    Reports (reportOf params id) (params.index "item") := ⟨h, rfl, rfl, rfl⟩

theorem message_of_report (h : commandReport i = some r) : ∃ m, i = .message (some m) := by
  unfold commandReport at h
  split at h
  · exact ⟨_, rfl⟩
  · cases h

theorem message_of_heard (h : a.heard i ≠ .other) : ∃ m, i = .message (some m) := by
  unfold heard at h
  split at h
  · exact ⟨_, rfl⟩
  · exact absurd rfl h

theorem heard_of_report (hs : a.turns.Sound) (hr : commandReport i = some r) (hown : a.Own r) :
    ∃ x, a.heard i = .tool r.id x true ∧ Reports r x := by
  obtain ⟨m, rfl⟩ := message_of_report hr
  obtain ⟨hmethod, hid, hkind, id, hitem, rfl⟩ := commandReport_eq_some.1 hr
  refine ⟨_, ?_, reports_reportOf hkind⟩
  obtain ⟨hthread, hsome, hturn⟩ := hown
  have hthread : ((m.index "params").index "threadId").str? = a.thread := hthread
  have hsome : ((m.index "params").index "turnId").str? ≠ none := hsome
  have hturn : ((m.index "params").index "turnId").str? =
      ((a.backgroundCommands.lookup id).map (·.turn)).or a.turn := hturn
  have hget : (m.get? "method").isSome = true := by
    rcases hget : m.get? "method" with _ | v
    · rw [Json.index, hget] at hmethod
      cases hmethod
    · rfl
  have hheard : heardItem ((m.index "params").index "item") true =
      .tool id ((m.index "params").index "item") true := by
    rw [heardItem, hkind, hitem]
    rfl
  have hobserved : a.observedCommand "item/completed" ((m.index "params").index "item") =
      a.backgroundCommands.lookup id := by
    rw [observedCommand, if_pos ⟨rfl, hkind⟩, hitem, Option.bind_some]
  rw [heard, if_pos ⟨hget, hid, hthread⟩, hmethod, Option.getD_some, heardNotification, hobserved]
  rcases hlook : a.backgroundCommands.lookup id with _ | command
  · rw [hlook, Option.map_none, Option.none_or] at hturn
    rw [hturn] at hsome
    have hrunning : a.phase = .running := hs.turn.1 (Option.ne_none_iff_isSome.1 hsome)
    dsimp only
    rw [if_neg (by simp [hrunning, hsome, hturn]), heardOfTurn, if_neg (by decide), if_pos (.inr rfl)]
    exact hheard
  · rw [hlook] at hturn
    dsimp only
    exact (if_pos hturn).trans hheard

theorem heardItem_tool {x y : Json} {completed done : Bool}
    (h : heardItem x completed = .tool id y done) :
    (x.index "id").str? = some id ∧ y = x ∧ done = completed := by
  unfold heardItem at h
  split at h
  · rename_i kind id' _ hid
    rw [hid]
    split_ifs at h
    cases h
    exact ⟨rfl, rfl, rfl⟩
  · cases h

theorem report_of_heard {x : Json} (hheard : a.heard i = .tool id x true)
    (hkind : (x.index "type").str? = some "commandExecution") :
    ∃ r, commandReport i = some r ∧ a.Own r ∧ r.id = id ∧ Reports r x := by
  obtain ⟨m, rfl⟩ : ∃ m, i = .message (some m) := message_of_heard (a := a) (by simp [hheard])
  rw [heard] at hheard
  split at hheard
  swap
  · cases hheard
  rename_i hm
  obtain ⟨_, hid, hthread⟩ := hm
  -- whichever way the item is heard, it is one of a completion, in a turn of its own
  have hreport : (m.index "method").str?.getD "" = "item/completed" →
      heardItem ((m.index "params").index "item") true = .tool id x true →
      ((m.index "params").index "turnId").str? ≠ none →
      ((m.index "params").index "turnId").str? =
        ((a.backgroundCommands.lookup id).map (·.turn)).or a.turn →
      ∃ r, commandReport (.message (some m)) = some r ∧ a.Own r ∧ r.id = id ∧ Reports r x := by
    intro hmethod hitem hsome hturn
    obtain ⟨hid', rfl, _⟩ := heardItem_tool hitem
    refine ⟨reportOf (m.index "params") id, commandReport_eq_some.2 ⟨?_, hid, hkind, id, hid', rfl⟩,
      ⟨hthread, hsome, hturn⟩, rfl, reports_reportOf hkind⟩
    rcases hm : (m.index "method").str? with _ | s
    · rw [hm] at hmethod
      exact absurd hmethod (by decide)
    · rw [hm] at hmethod
      exact congrArg some hmethod
  unfold heardNotification at hheard
  split at hheard
  · rename_i command hobserved
    split at hheard
    swap
    · cases hheard
    rename_i hturn
    unfold observedCommand at hobserved
    split at hobserved
    swap
    · cases hobserved
    rename_i hcompleted
    obtain ⟨hid', _, _⟩ := heardItem_tool hheard
    rw [hid', Option.bind_some] at hobserved
    refine hreport hcompleted.1 hheard (by simp [hturn]) ?_
    rw [hturn, hobserved]
    rfl
  · rename_i hobserved
    split at hheard
    · cases hheard
    rename_i hown
    simp only [not_or, not_not] at hown
    unfold heardOfTurn at hheard
    split_ifs at hheard with hdelta hitem
    · split at hheard <;> cases hheard
    · obtain ⟨hid', hx, hcompleted⟩ := heardItem_tool hheard
      have hmethod : (m.index "method").str?.getD "" = "item/completed" := by simpa using hcompleted.symm
      subst hx
      rw [observedCommand, if_pos ⟨hmethod, hkind⟩, hid', Option.bind_some] at hobserved
      rw [← hcompleted] at hheard
      refine hreport hmethod hheard hown.2.1 ?_
      rw [hown.2.2, hobserved]
      rfl

/-! ## The commands after one input -/

/-- The commands in the background after what was heard. -/
def commandsHeard (a : Traex) : Heard → List (String × BackgroundCommand)
  | .tool id x completed => a.commandsAfter id x completed
  | _ => a.backgroundCommands

theorem Does.commands {h : Heard} {tools texts : List String} {d : Desk} (hd : a.Does h tools texts d) :
    d.commands = a.commandsHeard h := by
  cases hd <;> rfl

theorem Items.commands {h : Heard} (hi : a.Items h out a') :
    a'.backgroundCommands = a.commandsHeard h := by
  rcases hi with ⟨hd, _⟩ | ⟨rfl, _, _, hd⟩
  · exact hd.commands
  · rcases hd with ⟨hd, _⟩ | ⟨hd, _⟩ <;> exact congrArg Desk.commands hd

/-- An item changes the commands when it is a completed one of a command, and only then. -/
theorem commandsAfter_cases {x : Json} {completed : Bool} :
    (completed = true ∧ (x.index "type").str? = some "commandExecution") ∨
      a.commandsAfter id x completed = a.backgroundCommands := by
  by_cases h : completed = true ∧ (x.index "type").str? = some "commandExecution"
  · exact .inl h
  · exact .inr (if_neg h)

theorem commandsAfter_backgrounded {x : Json} (hr : Reports r x) (h : r.status = some "backgrounded") :
    a.commandsAfter id x true = put id {
      turn := (((a.backgroundCommands.lookup id).map (·.turn)).or a.turn).getD ""
      process := r.process.or ((a.backgroundCommands.lookup id).bind (·.process)) }
        a.backgroundCommands := by
  unfold commandsAfter
  rw [if_pos ⟨rfl, hr.kind⟩, if_pos (hr.status.symm.trans h), hr.process]

theorem mem_commandsAfter_ended {x : Json} (hr : Reports r x)
    (h : r.status ∈ [some "completed", some "failed"]) {p : String × BackgroundCommand} :
    p ∈ a.commandsAfter id x true ↔ p ∈ a.backgroundCommands ∧ p.1 ≠ id ∧
      ¬(r.exited = true ∧ r.process ≠ none ∧ p.2.process = r.process) := by
  have hnot : (x.index "status").str? ≠ some "backgrounded" := by
    rw [← hr.status]
    intro hb
    simp [hb] at h
  have hex : exited x = if r.exited then r.process else none := by
    rw [exited, hr.exited, hr.process]
  unfold commandsAfter
  rw [if_pos ⟨rfl, hr.kind⟩, if_neg hnot, if_pos (hr.status ▸ h), released, List.mem_filter, mem_drop, hex,
    and_assoc]
  rcases r.exited <;> rcases r.process <;> simp

theorem commandsAfter_other {x : Json} (hr : Reports r x) (hb : r.status ≠ some "backgrounded")
    (he : r.status ∉ [some "completed", some "failed"]) :
    a.commandsAfter id x true = a.backgroundCommands := by
  unfold commandsAfter
  rw [if_pos ⟨rfl, hr.kind⟩, if_neg (hr.status ▸ hb), if_neg (hr.status ▸ he)]

/-- The commands have their own names. -/
abbrev Named (a : Traex) : Prop := (a.backgroundCommands.map (·.1)).Nodup

theorem named_commandsHeard {h : Heard} (hn : a.Named) : ((a.commandsHeard h).map (·.1)).Nodup := by
  cases h with
  | tool id x completed =>
    show ((a.commandsAfter id x completed).map (·.1)).Nodup
    unfold commandsAfter released
    dsimp only
    split_ifs
    · exact nodup_put hn
    · exact (List.filter_sublist.map _).nodup (nodup_drop hn)
    · exact hn
    · exact hn
  | _ => exact hn

/-- A command that was just reported is in the background, in its turn. -/
theorem Items.backgrounds (hs : a.turns.Sound) (hi : a.Items (a.heard i) out a')
    (hb : a.Backgrounds i id turn) : ∃ command, (id, command) ∈ a'.backgroundCommands ∧
      command.turn = turn := by
  obtain ⟨r, hr, hown, rfl, hturn, hstatus⟩ := hb
  obtain ⟨x, hheard, hreports⟩ := heard_of_report hs hr hown
  have hafter := hi.commands
  rw [hheard] at hafter
  have hafter : a'.backgroundCommands = a.commandsAfter r.id x true := hafter
  rw [hafter, commandsAfter_backgrounded hreports hstatus, ← hown.2.2, hturn]
  exact ⟨_, mem_put.2 (.inr rfl), rfl⟩

/-- A command in the background stays there, in its turn, unless it is released. -/
theorem Items.waits (hn : a.Named) (hi : a.Items (a.heard i) out a') {command : BackgroundCommand}
    (hmem : (id, command) ∈ a.backgroundCommands) (hr : ¬a.Releases i id) :
    ∃ command', (id, command') ∈ a'.backgroundCommands ∧ command'.turn = command.turn := by
  have hlook : a.backgroundCommands.lookup id = some command := (lookup_eq_some hn).2 hmem
  rw [hi.commands]
  rcases hheard : a.heard i with _ | _ | ⟨id', x, completed⟩ | _
  case tool =>
    show ∃ command', (id, command') ∈ a.commandsAfter id' x completed ∧ _
    rcases @commandsAfter_cases a id' x completed with ⟨rfl, hkind⟩ | hsame
    swap
    · rw [hsame]
      exact ⟨command, hmem, rfl⟩
    obtain ⟨r, hreport, hown, rfl, hreports⟩ := report_of_heard hheard hkind
    by_cases hb : r.status = some "backgrounded"
    · rw [commandsAfter_backgrounded hreports hb]
      by_cases hid : id = r.id
      · subst hid
        rw [hlook]
        exact ⟨_, mem_put.2 (.inr rfl), rfl⟩
      · exact ⟨command, mem_put.2 (.inl ⟨hmem, hid⟩), rfl⟩
    · by_cases he : r.status ∈ [some "completed", some "failed"]
      · refine ⟨command, (mem_commandsAfter_ended hreports he).2 ⟨hmem, ?_, ?_⟩, rfl⟩
        · rintro rfl
          exact hr ⟨r, hreport, hown, he, .inl rfl⟩
        · rintro ⟨hexited, hsome, hprocess⟩
          refine hr ⟨r, hreport, hown, he, .inr ⟨hexited, hsome, ?_⟩⟩
          rw [hlook, ← hprocess]
          rfl
      · rw [commandsAfter_other hreports hb he]
        exact ⟨command, hmem, rfl⟩
  all_goals exact ⟨command, hmem, rfl⟩

/-- A command that is released is no longer waited for. -/
theorem Items.releases (hs : a.turns.Sound) (hn : a.Named) (hi : a.Items (a.heard i) out a')
    (hr : a.Releases i id) : ∀ p ∈ a'.backgroundCommands, p.1 ≠ id := by
  obtain ⟨r, hreport, hown, hstatus, hby⟩ := hr
  obtain ⟨x, hheard, hreports⟩ := heard_of_report hs hreport hown
  have hafter := hi.commands
  rw [hheard] at hafter
  have hafter : a'.backgroundCommands = a.commandsAfter r.id x true := hafter
  rintro p hp rfl
  rw [hafter, mem_commandsAfter_ended hreports hstatus] at hp
  obtain ⟨hmem, hid, hprocess⟩ := hp
  rcases hby with hid' | ⟨hexited, hsome, hlook⟩
  · exact hid hid'.symm
  · rw [(lookup_eq_some hn).2 hmem] at hlook
    exact hprocess ⟨hexited, hsome, Option.some.inj hlook⟩

/-! ## What a turn shows -/

/-- An input that was taken, with the state it found and the answer. -/
abbrev Entry := Traex × Input × List Action

/-- What was taken since a turn was last started. -/
def sinceStart : List Entry → List Entry :=
  List.foldl (fun seg e => if e.2.2.any Action.startsTurn then [] else seg ++ [e]) []

/-- The tool calls shown. -/
def toolsShown (seg : List Entry) : List String := seg.flatMap fun e => e.2.2.filterMap toolOf

/-- A part of a message: a delta of its text, or the message completed. -/
inductive Piece where
  | delta (text : String)
  | whole (text : String)
  deriving DecidableEq

def pieceOf (id : String) : Heard → Option Piece
  | .delta m text => if m = id then some (.delta text) else none
  | .whole m text => if m = id then some (.whole text) else none
  | _ => none

/-- The parts of a message, as they came. -/
def pieces (id : String) (seg : List Entry) : List Piece :=
  seg.filterMap fun e => pieceOf id (e.1.heard e.2.1)

/-- The texts shown for the parts of a message. -/
def textsOf (id : String) (seg : List Entry) : List String :=
  seg.flatMap fun e => if (pieceOf id (e.1.heard e.2.1)).isSome then e.2.2.filterMap textOf else []

/-- What is shown of the parts of a message: each delta, and the completed text only when nothing came
before it. -/
def spoken : Bool → List Piece → List String
  | _, [] => []
  | _, .delta text :: rest => text :: spoken true rest
  | begun, .whole text :: rest => (if begun then [] else [text]) ++ spoken true rest

theorem spoken_append (begun : Bool) (l l' : List Piece) :
    spoken begun (l ++ l') = spoken begun l ++ spoken (begun || !l.isEmpty) l' := by
  induction l generalizing begun with
  | nil => simp [spoken]
  | cons p l ih => cases p <;> simp [spoken, ih]

theorem spoken_deltas (begun : Bool) (texts : List String) : spoken begun (texts.map .delta) = texts := by
  induction texts generalizing begun with
  | nil => rfl
  | cons t texts ih => simp [spoken, ih]

theorem spoken_again (texts : List String) : spoken true (texts.map .whole) = [] := by
  induction texts with
  | nil => rfl
  | cons t texts ih => simp [spoken, ih]

/-- The parts of a message that is completed after its deltas. -/
theorem spoken_message (deltas again : List String) (text : String) :
    spoken false (deltas.map .delta ++ .whole text :: again.map .whole) =
      if deltas = [] then [text] else deltas := by
  rw [spoken_append, spoken_deltas, spoken, spoken_again, List.append_nil]
  rcases deltas with _ | ⟨d, deltas⟩ <;> simp

theorem sinceStart_concat (tr : List Entry) (e : Entry) :
    sinceStart (tr ++ [e]) = if e.2.2.any Action.startsTurn then [] else sinceStart tr ++ [e] := by
  simp [sinceStart]

theorem toolsShown_concat (seg : List Entry) (e : Entry) :
    toolsShown (seg ++ [e]) = toolsShown seg ++ e.2.2.filterMap toolOf := by
  simp [toolsShown]

theorem pieces_concat (seg : List Entry) (e : Entry) :
    pieces id (seg ++ [e]) = pieces id seg ++ (pieceOf id (e.1.heard e.2.1)).toList := by
  rw [pieces, pieces, List.filterMap_append]
  rcases h : pieceOf id (e.1.heard e.2.1) <;> simp [h]

theorem textsOf_concat (seg : List Entry) (e : Entry) :
    textsOf id (seg ++ [e]) = textsOf id seg ++
      if (pieceOf id (e.1.heard e.2.1)).isSome then e.2.2.filterMap textOf else [] := by
  simp [textsOf]

/-- What the items of the running turn were told as, against what the adapter remembers. -/
structure Shown (a : Traex) (seg : List Entry) : Prop where
  idle : a.turn = none → a.streamed = [] ∧ a.tools = []
  once : (toolsShown seg).Nodup
  seen : a.turn ≠ none → ∀ id ∈ toolsShown seg, id ∈ a.tools
  fresh : a.phase = .starting → toolsShown seg = [] ∧ ∀ id, pieces id seg = []
  begun : a.turn ≠ none → ∀ id, id ∈ a.streamed ↔ pieces id seg ≠ []
  texts : ∀ id, textsOf id seg = spoken false (pieces id seg)

variable {seg : List Entry} {h : Heard} {called said : List String} {d : Desk}

/-- What is heard while no turn is running is a command that was shown before. -/
theorem heard_idle (ht : a.turn = none) :
    a.heard i = .other ∨ ∃ id x completed, a.heard i = .tool id x completed ∧ ¬a.Unseen id := by
  unfold heard
  split
  swap
  · exact .inl rfl
  split
  swap
  · exact .inl rfl
  unfold heardNotification
  split
  · rename_i m _ _ command hobserved
    split
    swap
    · exact .inl rfl
    unfold observedCommand at hobserved
    split at hobserved
    swap
    · cases hobserved
    rename_i hcompleted
    obtain ⟨id, hid, hlook⟩ := Option.bind_eq_some_iff.1 hobserved
    refine .inr ⟨id, (m.index "params").index "item", true, ?_, fun hu => ?_⟩
    · rw [heardItem, hcompleted.2, hid]
      rfl
    · simpa [hlook] using hu.2
  · refine .inl (if_pos (.inr ?_))
    rw [ht]
    exact em _

theorem Does.idle (ht : a.turn = none) (hd : a.Does (a.heard i) called said d) :
    called = [] ∧ d.streamed = a.streamed ∧ d.tools = a.tools ∧ ∀ id, pieceOf id (a.heard i) = none := by
  rcases heard_idle (i := i) ht with hh | ⟨id, x, completed, hh, hseen⟩
  · rw [hh] at hd ⊢
    cases hd
    exact ⟨rfl, rfl, rfl, fun _ => rfl⟩
  · rw [hh] at hd ⊢
    cases hd
    exact ⟨if_neg hseen, rfl, if_neg hseen, fun _ => rfl⟩

/-- What is heard of another message, or of none, leaves this one as it was. -/
theorem Shown.aside {id : String} (hs : a.Shown seg) (ht : a.turn ≠ none) (hp : pieceOf id h = none)
    (hd : id ∈ d.streamed ↔ id ∈ a.streamed) :
    (id ∈ d.streamed ↔ pieces id seg ++ (pieceOf id h).toList ≠ []) ∧
      (textsOf id seg ++ if (pieceOf id h).isSome then said else []) =
        spoken false (pieces id seg ++ (pieceOf id h).toList) := by
  rw [hp, hd]
  simp only [Option.toList_none, Option.isSome_none, Bool.false_eq_true, if_false, List.append_nil]
  exact ⟨hs.begun ht id, hs.texts id⟩

theorem Does.texts (hs : a.Shown seg) (ht : a.turn ≠ none) (hd : a.Does h called said d) (id : String) :
    (id ∈ d.streamed ↔ pieces id seg ++ (pieceOf id h).toList ≠ []) ∧
      (textsOf id seg ++ if (pieceOf id h).isSome then said else []) =
        spoken false (pieces id seg ++ (pieceOf id h).toList) := by
  cases hd with
  | other => exact hs.aside ht rfl Iff.rfl
  | tool => exact hs.aside ht rfl Iff.rfl
  | @delta m text =>
    by_cases hm : m = id
    · subst hm
      simp [pieceOf, spoken_append, spoken, hs.texts m]
    · refine hs.aside ht (if_neg hm) ?_
      rw [List.mem_insert_iff]
      exact or_iff_right (Ne.symm hm)
  | @whole m text =>
    by_cases hm : m = id
    · subst hm
      have hbegun := hs.begun ht m
      by_cases hmem : m ∈ a.streamed
      · simp [pieceOf, spoken_append, spoken, hs.texts m, hmem, hbegun.1 hmem]
      · have hnil : pieces m seg = [] := by
          by_contra hne
          exact hmem (hbegun.2 hne)
        simp [pieceOf, spoken, hs.texts m, hmem, hnil]
    · refine hs.aside ht (if_neg hm) ?_
      rw [List.mem_insert_iff]
      exact or_iff_right (Ne.symm hm)

theorem Does.tools (hs : a.Shown seg) (ht : a.turn ≠ none) (hd : a.Does h called said d) :
    (toolsShown seg ++ called).Nodup ∧ ∀ id ∈ toolsShown seg ++ called, id ∈ d.tools := by
  have hseen := hs.seen ht
  cases hd with
  | @tool m x completed =>
    dsimp only
    by_cases hu : a.Unseen m
    · rw [if_pos hu, if_pos hu, List.nodup_append]
      refine ⟨⟨hs.once, List.nodup_singleton _, ?_⟩, ?_⟩
      · intro id hid id' hid' heq
        rw [List.mem_singleton] at hid'
        exact hu.1 (hid' ▸ heq ▸ hseen id hid)
      · intro id hid
        rw [List.mem_insert_iff]
        rcases List.mem_append.1 hid with hid | hid
        · exact .inr (hseen id hid)
        · exact .inl (List.mem_singleton.1 hid)
    · rw [if_neg hu, if_neg hu, List.append_nil]
      exact ⟨hs.once, hseen⟩
  | _ =>
    rw [List.append_nil]
    exact ⟨hs.once, hseen⟩

theorem Turns.Remarks.unfinished (h : Turns.Remarks out) : out.any Action.isFinished = false := by
  rw [List.any_eq_false]
  intro x hx
  exact List.countP_eq_zero.1 h.ends x hx

/-- The turn, across one move. -/
theorem Turns.Moves.turning {c c' : Turns} (hs : c.Sound) (hm : c.Moves i out c') :
    (out.any Action.startsTurn = false → c'.phase = .starting → c.phase = .starting) ∧
      (out.any Action.startsTurn = true ∨ out.any Action.isFinished = true → c'.turn = none) ∧
      (out.any Action.isFinished = false → c'.turn = c.turn ∨ c.phase = .starting) := by
  have hturn : c.phase ≠ .running → c.turn = none := fun hp => by
    by_contra hne
    exact hp (hs.turn.1 (Option.ne_none_iff_isSome.1 hne))
  have hquiet : ∀ {out : List Action}, Turns.Remarks out →
      ¬(out.any Action.startsTurn = true ∨ out.any Action.isFinished = true) := by
    intro out hout
    simp [hout.starts, hout.unfinished]
  cases hm with
  | rest _ _ hout => exact ⟨fun _ h => h, fun h => (hquiet hout h).elim, fun _ => .inl rfl⟩
  | @prepare _ phase _ _ hp hout =>
    refine ⟨fun _ h => ?_, fun h => (hquiet hout h).elim, fun _ => .inl rfl⟩
    obtain rfl : phase = .starting := h
    simp at hp
  | «open» _ hp => exact ⟨fun _ h => by simp at h, fun _ => hturn (by simp [hp]), fun _ => .inl rfl⟩
  | openStart _ hp _ hframe =>
    exact ⟨fun h => by simp [hframe] at h, fun _ => hturn (by simp [hp]), fun _ => .inl rfl⟩
  | start _ hp _ hframe =>
    exact ⟨fun h => by simp [hframe] at h, fun _ => hturn (by simp [hp]), fun _ => .inl rfl⟩
  | steer _ _ _ _ _ _ hout => exact ⟨fun _ h => h, fun h => (hquiet hout h).elim, fun _ => .inl rfl⟩
  | buffer => exact ⟨fun _ h => h, by simp, fun _ => .inl rfl⟩
  | admission _ _ _ hp _ hout =>
    refine ⟨fun _ h => by simp at h, fun h => (hquiet hout ?_).elim, fun _ => .inr hp⟩
    simpa [Action.isFinished, Action.startsTurn] using h
  | admitCompleted _ _ _ hp => exact ⟨fun _ h => by simp [completed] at h, fun _ => rfl, fun _ => .inr hp⟩
  | @complete _ _ success message =>
    refine ⟨fun _ h => by simp [completed] at h, fun _ => rfl, fun h => ?_⟩
    simp [ending, Action.isFinished] at h
  | accepted => exact ⟨fun _ h => h, by simp, fun _ => .inl rfl⟩
  | late =>
    refine ⟨fun _ h => h, fun h => ?_, fun _ => .inl rfl⟩
    split at h <;> simp [Action.isFinished, Action.startsTurn] at h
  | rejected => exact ⟨fun _ h => h, by simp [Action.isFinished, Action.startsTurn], fun _ => .inl rfl⟩

theorem Shown.next (hsound : a.turns.Sound) (hsound' : a'.turns.Sound) (hs : a.Shown seg)
    (hm : Turns.Moves a.turns i out a'.turns) (hi : a.Items (a.heard i) out a') :
    a'.Shown (if out.any Action.startsTurn then [] else seg ++ [(a, i, out)]) := by
  obtain ⟨hstarting, hfinished, hturn⟩ := hm.turning hsound
  have hcases : (a.Does (a.heard i) (out.filterMap toolOf) (out.filterMap textOf) a'.desk ∧
        out.any Action.isFinished = false) ∨
      (a.heard i = .other ∧ out.filterMap toolOf = [] ∧ out.filterMap textOf = [] ∧
        a'.streamed = [] ∧ a'.tools = [] ∧
        (out.any Action.startsTurn = true ∨ out.any Action.isFinished = true)) := by
    rcases hi with hd | ⟨hh, htools, htexts, ⟨hd, hf⟩ | ⟨hd, hf⟩⟩
    · exact .inl hd
    · rw [hh, htools, htexts, hd]
      exact .inl ⟨.other, hf⟩
    · exact .inr ⟨hh, htools, htexts, congrArg Desk.streamed hd, congrArg Desk.tools hd, hf⟩
  have hrest : a.phase = .starting → a.turn = none := by
    intro hp
    by_contra hne
    have := hsound.turn.1 (Option.ne_none_iff_isSome.1 hne)
    rw [show a.phase = .running from this] at hp
    cases hp
  have hidle : a'.turn = none → a'.streamed = [] ∧ a'.tools = [] := by
    intro hnone
    rcases hcases with ⟨hd, hf⟩ | ⟨_, _, _, hstreamed, htools, _⟩
    · have ht : a.turn = none := (hturn hf).elim (fun heq => heq.symm.trans hnone) hrest
      obtain ⟨_, hstreamed, htools, _⟩ := hd.idle ht
      have hstreamed : a'.streamed = a.streamed := hstreamed
      have htools : a'.tools = a.tools := htools
      rw [hstreamed, htools]
      exact hs.idle ht
    · exact ⟨hstreamed, htools⟩
  split
  -- a new turn has shown nothing
  · rename_i hstarts
    have hnone : a'.turn = none := hfinished (.inl hstarts)
    exact ⟨hidle, List.nodup_nil, fun hne => absurd hnone hne, fun _ => ⟨rfl, fun _ => rfl⟩,
      fun hne => absurd hnone hne, fun _ => rfl⟩
  rename_i hstarts
  rw [Bool.not_eq_true] at hstarts
  have hfresh : a'.phase = .starting → a.phase = .starting := hstarting hstarts
  have hquiet : out.filterMap toolOf = [] → (∀ id, pieceOf id (a.heard i) = none) →
      toolsShown (seg ++ [(a, i, out)]) = toolsShown seg ∧
        (∀ id, pieces id (seg ++ [(a, i, out)]) = pieces id seg) ∧
        ∀ id, textsOf id (seg ++ [(a, i, out)]) = textsOf id seg := by
    intro htools hpieces
    refine ⟨?_, fun id => ?_, fun id => ?_⟩
    · rw [toolsShown_concat, htools, List.append_nil]
    · rw [pieces_concat, hpieces, Option.toList_none, List.append_nil]
    · rw [textsOf_concat, hpieces]
      simp
  rcases hcases with ⟨hd, hf⟩ | ⟨hh, htools, htexts, _, _, hends⟩
  · by_cases ht : a.turn = none
    · obtain ⟨htools, hstreamed, _, hpieces⟩ := hd.idle ht
      obtain ⟨hcalls, hparts, htexts⟩ := hquiet htools hpieces
      have hadmitted : a'.turn ≠ none → a.phase = .starting := fun hne =>
        (hturn hf).resolve_left fun heq => hne (heq.trans ht)
      refine ⟨hidle, ?_, fun hne => ?_, fun hp => ?_, fun hne id => ?_, fun id => ?_⟩ <;>
        simp only [hcalls, hparts, htexts]
      · exact hs.once
      · rw [(hs.fresh (hadmitted hne)).1]
        exact fun _ hid => absurd hid List.not_mem_nil
      · exact hs.fresh (hfresh hp)
      · have hstreamed : a'.streamed = a.streamed := hstreamed
        rw [hstreamed, (hs.idle ht).1, (hs.fresh (hadmitted hne)).2]
        simp
      · exact hs.texts id
    · have hrunning : a.phase = .running := hsound.turn.1 (Option.ne_none_iff_isSome.1 ht)
      obtain ⟨honce, hseen⟩ := hd.tools hs ht
      refine ⟨hidle, ?_, fun _ => ?_, fun hp => ?_, fun _ id => ?_, fun id => ?_⟩
      · rw [toolsShown_concat]
        exact honce
      · rw [toolsShown_concat]
        exact hseen
      · rw [hfresh hp] at hrunning
        cases hrunning
      · rw [pieces_concat]
        exact (hd.texts hs ht id).1
      · rw [textsOf_concat, pieces_concat]
        exact (hd.texts hs ht id).2
  · have hnone : a'.turn = none := hfinished (.inr (hends.resolve_left (by simp [hstarts])))
    obtain ⟨hcalls, hparts, htexts⟩ := hquiet htools fun id => by rw [hh]; rfl
    refine ⟨hidle, ?_, fun hne => absurd hnone hne, fun hp => ?_, fun hne => absurd hnone hne, fun id => ?_⟩ <;>
      simp only [hcalls, hparts, htexts]
    · exact hs.once
    · exact hs.fresh (hfresh hp)
    · exact hs.texts id

/-! ## Whole runs -/

/-- The commands that were reported as in the background, against those that are waited for. -/
structure Kept (a : Traex) (tr : List Entry) : Prop where
  named : a.Named
  waits : ∀ before e after id turn, tr = before ++ e :: after → e.1.Backgrounds e.2.1 id turn →
    (∀ e' ∈ after, ¬e'.1.Releases e'.2.1 id) →
      ∃ command, (id, command) ∈ a.backgroundCommands ∧ command.turn = turn
  freed : ∀ before e id, tr = before ++ [e] → e.1.Releases e.2.1 id →
    ∀ p ∈ a.backgroundCommands, p.1 ≠ id

variable {tr : List Entry}

theorem Kept.next (hsound : a.turns.Sound) (hk : a.Kept tr) (hi : a.Items (a.heard i) out a') :
    a'.Kept (tr ++ [(a, i, out)]) where
  named := by
    unfold Named
    rw [hi.commands]
    exact named_commandsHeard hk.named
  waits before e after id turn hsplit hb hwait := by
    rcases Machine.entry_cases hsplit with ⟨_, rfl, _⟩ | ⟨rest, rfl, htr⟩
    · exact hi.backgrounds hsound hb
    · obtain ⟨command, hmem, hturn⟩ := hk.waits _ _ _ _ _ htr hb fun e' he' =>
        hwait e' (List.mem_append_left _ he')
      obtain ⟨command', hmem', hturn'⟩ := hi.waits hk.named hmem
        (hwait (a, i, out) (List.mem_append_right _ List.mem_cons_self))
      exact ⟨command', hmem', hturn'.trans hturn⟩
  freed before e id hsplit hr := by
    obtain ⟨_, he⟩ := List.append_inj' hsplit rfl
    obtain rfl := List.singleton_inj.1 he
    exact hi.releases hsound hk.named hr

/-- What holds between the inputs of a served adapter. -/
structure Told (a : Traex) (tr : List Entry) : Prop where
  sound : a.turns.Sound
  wires : a.Wires
  kept : a.Kept tr
  shown : a.Shown (sinceStart tr)
  source : ∀ e ∈ tr, e.2.2.filterMap textOf ≠ [] → ∃ id, (pieceOf id (e.1.heard e.2.1)).isSome = true

theorem Does.source (hd : a.Does h called said d) (hsaid : said ≠ []) :
    ∃ id, (pieceOf id h).isSome = true := by
  cases hd with
  | other => exact absurd rfl hsaid
  | tool => exact absurd rfl hsaid
  | @delta id text => exact ⟨id, by simp [pieceOf]⟩
  | @whole id text => exact ⟨id, by simp [pieceOf]⟩

theorem Items.source (hi : a.Items h out a') (hsaid : out.filterMap textOf ≠ []) :
    ∃ id, (pieceOf id h).isSome = true := by
  rcases hi with ⟨hd, _⟩ | ⟨_, _, htexts, _⟩
  · exact hd.source hsaid
  · exact absurd htexts hsaid

theorem Told.next (ht : a.Told tr) (hserves : a.serves i = true)
    (hrun : (advance i).run a = (.ok out, a')) : a'.Told (tr ++ [(a, i, out)]) := by
  obtain ⟨hm, hw⟩ := (wp_run (advance_spec ht.sound ht.wires hserves) hrun).1 out rfl
  have hi := (wp_run (advance_items ht.sound ht.wires hserves) hrun).1 out rfl
  have hsound' := hm.sound ht.sound
  refine ⟨hsound', hw, ht.kept.next ht.sound hi, ?_, fun e he => ?_⟩
  · rw [sinceStart_concat]
    exact ht.shown.next ht.sound hsound' hm hi
  · rcases List.mem_append.1 he with he | he
    · exact ht.source e he
    · rw [List.mem_singleton.1 he]
      exact hi.source

theorem Told.refused {e : String} (ht : a.Told tr) (hserves : a.serves i = true)
    (hl : i.lenient = true) (hrun : (advance i).run a = (.error e, a')) : a'.Told tr := by
  obtain ⟨hturns, hw⟩ := (wp_run (advance_spec ht.sound ht.wires hserves) hrun).2 e rfl hl
  have hd := (wp_run (advance_items ht.sound ht.wires hserves) hrun).2 e rfl hl
  have hcommands : a'.backgroundCommands = a.backgroundCommands := congrArg Desk.commands hd
  have hstreamed : a'.streamed = a.streamed := congrArg Desk.streamed hd
  have htools : a'.tools = a.tools := congrArg Desk.tools hd
  have hturn : a'.turn = a.turn := congrArg Turns.turn hturns
  have hphase : a'.phase = a.phase := congrArg Turns.phase hturns
  refine ⟨by rw [hturns]; exact ht.sound, hw, ⟨?_, ?_, ?_⟩, ⟨?_, ht.shown.once, ?_, ?_, ?_, ht.shown.texts⟩,
    ht.source⟩
  · unfold Named
    rw [hcommands]
    exact ht.kept.named
  · rw [hcommands]
    exact ht.kept.waits
  · rw [hcommands]
    exact ht.kept.freed
  · rw [hturn, hstreamed, htools]
    exact ht.shown.idle
  · rw [hturn, htools]
    exact ht.shown.seen
  · rw [hphase]
    exact ht.shown.fresh
  · rw [hturn, hstreamed]
    exact ht.shown.begun

theorem created_told {instructions uuid cwd : String} {session : Session} {config : LaunchConfig}
    (h : create instructions uuid cwd session config = .ok a) : a.Told [] := by
  obtain ⟨hs, hw, _⟩ := created_followed h
  simp only [create, Fallible.bind_eq_ok, Fallible.pure_eq_ok] at h
  obtain ⟨_, _, rfl⟩ := h
  refine ⟨hs, hw, ⟨List.nodup_nil, ?_, ?_⟩, ⟨fun _ => ⟨rfl, rfl⟩, List.nodup_nil, ?_, ?_, ?_, fun _ => rfl⟩, ?_⟩
  all_goals simp [sinceStart, toolsShown, pieces]

/-- A command in the background keeps the adapter busy until it is released; a tool call is shown
once in a turn, and a message with its text once. -/
theorem commands_wait (instructions uuid cwd : String) (session : Session) (config : LaunchConfig)
    (a : Traex) (hcreate : create instructions uuid cwd session config = .ok a) (inputs : List Input)
    (hserved : Machine.Served advance Input.lenient serves a inputs) :
    let life := Machine.run advance Input.lenient a inputs
    let tr := Machine.trace advance Input.lenient { state := a } inputs
    (life.ended = false →
      (∀ k (hk : k < tr.length) id turn, tr[k].1.Backgrounds tr[k].2.1 id turn →
        (∀ e ∈ tr.drop (k + 1), ¬e.1.Releases e.2.1 id) →
          (life.state.backgroundCommands.lookup id).map (·.turn) = some turn ∧
            life.state.hasBackgroundWork = true ∧ life.state.canReconfigure = false) ∧
      -- and no longer
      (∀ e id, tr.getLast? = some e → e.1.Releases e.2.1 id →
        life.state.backgroundCommands.lookup id = none)) ∧
    -- what the last turn has shown
    (toolsShown (sinceStart tr)).Nodup ∧
    (∀ (id text : String) (deltas again : List String), pieces id (sinceStart tr) =
        deltas.map .delta ++ .whole text :: again.map .whole →
      deltas = [] ∨ String.join deltas = text → String.join (textsOf id (sinceStart tr)) = text) ∧
    (∀ e ∈ tr, e.2.2.filterMap textOf ≠ [] → ∃ id, (pieceOf id (e.1.heard e.2.1)).isSome = true) := by
  intro life tr
  obtain ⟨s, htold, hlive⟩ : ∃ s, Told s tr ∧ (life.ended = false → life.state = s) := by
    have h := Machine.trace_keeps (P := Told) (fun _ _ _ _ _ h hi hrun => h.next hi hrun)
      (fun _ _ _ _ _ hl h hi hrun => h.refused hi hl hrun) ⟨a, created_told hcreate, fun _ => rfl⟩ hserved
    rwa [List.nil_append] at h
  refine ⟨fun hend => ?_, htold.shown.once, fun id text deltas again hpieces horder => ?_, htold.source⟩
  · obtain rfl : life.state = s := hlive hend
    refine ⟨fun k hk id turn hb hwait => ?_, fun e id hlast hr => ?_⟩
    · obtain ⟨command, hmem, hturn⟩ := htold.kept.waits (tr.take k) tr[k] _ id turn
        (by rw [← List.drop_eq_getElem_cons hk, List.take_append_drop]) hb hwait
      have hwork : life.state.hasBackgroundWork = true := by
        unfold hasBackgroundWork
        rw [Bool.or_eq_true]
        refine .inr ?_
        simpa using List.ne_nil_of_mem hmem
      refine ⟨?_, hwork, ?_⟩
      · rw [(lookup_eq_some htold.kept.named).2 hmem]
        exact congrArg some hturn
      · unfold canReconfigure
        rw [hwork]
        simp
    · obtain ⟨before, hsplit⟩ := List.getLast?_eq_some_iff.1 hlast
      exact lookup_eq_none.2 (htold.kept.freed before e id hsplit hr)
  · rw [htold.shown.texts, hpieces, spoken_message]
    rcases horder with rfl | hjoin
    · simp
    · split
      · simp
      · exact hjoin

/-! ## Examples of runs -/

/-- A notification of the turn `turn` of the thread `t`. -/
def told (method : String) (rest : List (String × Json)) : Input :=
  .message (some (.obj [("method", .str method),
    ("params", .obj ([("threadId", .str "t"), ("turnId", .str "turn")] ++ rest))]))

def toldItem (kind id : String) (rest : List (String × Json)) : Input :=
  told "item/completed" [("item", .obj ([("type", .str kind), ("id", .str id)] ++ rest))]

def toldDelta (id text : String) : Input :=
  told "item/agentMessage/delta" [("itemId", .str id), ("delta", .str text)]

/-- A turn with a command that goes on after it, and a message. -/
def building : List Input :=
  opened ++ [.start "hello", answer 4 (started "turn"),
    toldItem "commandExecution" "build" [("status", .str "backgrounded"), ("processId", .str "7")],
    toldDelta "m" "h", toldDelta "m" "i", toldItem "agentMessage" "m" [("text", .str "hi")],
    completion "t" "turn" "completed",
    toldItem "commandExecution" "build" [("status", .str "declined")]]

theorem commands_wait_building :
    (Machine.run advance Input.lenient created building).state.canReconfigure = false ∧
      String.join (textsOf "m"
        (sinceStart (Machine.trace advance Input.lenient { state := created } building))) = "hi" := by
  obtain ⟨hcommands, _, htexts, _⟩ :=
    commands_wait "" "" "/tmp" default {} created rfl building (by decide +kernel)
  have hbuild := (hcommands (by decide +kernel)).1 6 (by decide +kernel) "build" "turn"
    (by decide +kernel) (by decide +kernel)
  exact ⟨hbuild.2.2, htexts "m" "hi" ["h", "i"] [] (by decide +kernel) (.inr (by decide))⟩

/-- A delta may come after its message is completed: the text is shown again. -/
theorem late_delta_repeats :
    let tr := Machine.trace advance Input.lenient { state := created }
      (opened ++ [.start "hello", answer 4 (started "turn"),
        toldItem "agentMessage" "m" [("text", .str "hi")], toldDelta "m" "hi"])
    pieces "m" (sinceStart tr) = [.whole "hi", .delta "hi"] ∧
      textsOf "m" (sinceStart tr) = ["hi", "hi"] := by
  decide +kernel

end Traex

end LatteWork
