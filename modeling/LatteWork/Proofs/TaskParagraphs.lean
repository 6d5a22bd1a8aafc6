import LatteWork.Lib.Paragraphs
import LatteWork.Proofs.TaskReader

/-!
# The paragraphs that are scanned for links

The transcript joins the texts of a paragraph over the events that it shows nothing of; the collector
of task information takes each such event for the end of a text. So it scans the paragraphs of the
transcript just when no such event stands within one.
-/

namespace LatteWork

namespace TaskInfo

open Resources Paragraphs

section transcript

/-- What an event is to the paragraphs of the transcript. `rendered` has the turns that have their
card already. -/
def token (m : TranscriptMaps) (rendered : List String) (e : Event) : Token Char :=
  match e.event with
  | .text text => .say text.toList
  | .turnChanges changes => if changes.requestId ∈ rendered then .pass else .stop
  | .queuedMessageSent _ requestId =>
    if (m.receipts.lookup (e.sessionId, requestId)).any fun r => r.2 = e.seq then .stop else .pass
  | .state _ message => if message.any (· ≠ "") then .stop else .pass
  | .usage .. | .progress _ | .subagent _ | .approvalResolved .. | .questionResolved .. => .pass
  | _ => .stop

/-- The turns that have their card behind an event. -/
def rendering (rendered : List String) (e : Event) : List String :=
  match e.event with
  | .turnChanges changes =>
    if changes.requestId ∈ rendered then rendered else changes.requestId :: rendered
  | _ => rendered

def tokens (m : TranscriptMaps) : List String → List Event → List (Token Char)
  | _, [] => []
  | rendered, e :: log => token m rendered e :: tokens m (rendering rendered e) log

/-- The texts of the assistant's items. -/
def assistantTexts (items : List Item) : List (List Char) :=
  items.filterMap fun item =>
    match item with
    | .assistant _ text => some text.toList
    | _ => none

/-- The paragraphs that are done and the one that may go on, of items of which the newest is first. -/
def paragraphs : List Item → List (List Char) × List Char
  | .assistant _ text :: rest =>
    ((assistantTexts rest.reverse).filter (· ≠ []), text.toList)
  | items => ((assistantTexts items.reverse).filter (· ≠ []), [])

variable {m : TranscriptMaps} {scan : TranscriptScan} {items : List Item} {e : Event} {log : List Event}

theorem assistantTexts_append (a b : List Item) :
    assistantTexts (a ++ b) = assistantTexts a ++ assistantTexts b := List.filterMap_append

theorem filter_singleton (text : List Char) : [text].filter (· ≠ []) = emit text := by
  cases text <;> rfl

theorem paragraphs_spec : (assistantTexts items.reverse).filter (· ≠ []) =
    (paragraphs items).1 ++ emit (paragraphs items).2 := by
  cases items with
  | nil => rfl
  | cons item rest =>
    cases item with
    | assistant key text =>
      rw [List.reverse_cons, assistantTexts_append, List.filter_append, paragraphs]
      congr 1
      exact filter_singleton text.toList
    | _ => simp [paragraphs]

/-- An item that is no text of the assistant ends the paragraph. -/
theorem paragraphs_push {item : Item} (h : ∀ key text, item ≠ .assistant key text) :
    paragraphs (item :: items) = ((paragraphs items).1 ++ emit (paragraphs items).2, []) := by
  rw [← paragraphs_spec]
  cases item with
  | assistant key text => exact absurd rfl (h key text)
  | _ => simp [paragraphs, assistantTexts]

/-- A text goes on with the paragraph. -/
theorem paragraphs_say (seq : ℕ) (text : String) : paragraphs (scan.say seq text).items =
    ((paragraphs scan.items).1, (paragraphs scan.items).2 ++ text.toList) := by
  unfold TranscriptScan.say
  split
  · rename_i key said rest hitems
    rw [hitems]
    simp [paragraphs]
  · rename_i hitems
    have hnone : paragraphs scan.items = ((assistantTexts scan.items.reverse).filter (· ≠ []), []) := by
      unfold paragraphs
      split
      · rename_i key said rest heq
        exact absurd heq (hitems key said rest)
      · rfl
    rw [hnone]
    rfl

theorem say_rendered (scan : TranscriptScan) (seq : ℕ) (text : String) :
    (scan.say seq text).renderedChanges = scan.renderedChanges := by
  unfold TranscriptScan.say
  split <;> rfl

/-- What one event does to the paragraphs. -/
theorem step_paragraphs (m : TranscriptMaps) (scan : TranscriptScan) (e : Event) :
    (scan.step m e).renderedChanges = rendering scan.renderedChanges e ∧
      paragraphs (scan.step m e).items =
        match token m scan.renderedChanges e with
        | .say text => ((paragraphs scan.items).1, (paragraphs scan.items).2 ++ text)
        | .stop => ((paragraphs scan.items).1 ++ emit (paragraphs scan.items).2, [])
        | .pass => paragraphs scan.items := by
  unfold TranscriptScan.step token rendering
  cases e.event with
  | text text => exact ⟨say_rendered scan e.seq text, paragraphs_say e.seq text⟩
  | turnChanges changes =>
    by_cases hmem : changes.requestId ∈ scan.renderedChanges
    · simp [hmem]
    · simp only [hmem, if_false]
      exact ⟨trivial, paragraphs_push fun key text => by simp [Item.plain]⟩
  | queuedMessageSent text requestId =>
    dsimp only
    split
    · exact ⟨rfl, paragraphs_push fun key text => by simp⟩
    · exact ⟨rfl, rfl⟩
  | state status message =>
    dsimp only
    split
    · exact ⟨rfl, paragraphs_push fun key text => by simp [Item.plain]⟩
    · exact ⟨rfl, rfl⟩
  | usage | progress | subagent | approvalResolved | questionResolved => exact ⟨rfl, rfl⟩
  | _ => exact ⟨rfl, paragraphs_push fun key text => by simp [Item.plain]⟩

theorem foldl_paragraphs : ∀ (log : List Event) (scan : TranscriptScan),
    (assistantTexts (log.foldl (TranscriptScan.step m) scan).items.reverse).filter (· ≠ []) =
      (paragraphs scan.items).1 ++ join (paragraphs scan.items).2 (tokens m scan.renderedChanges log)
  | [], scan => paragraphs_spec
  | e :: log, scan => by
    obtain ⟨hrendered, hstep⟩ := step_paragraphs m scan e
    rw [List.foldl_cons, foldl_paragraphs log, hrendered, hstep, tokens]
    cases token m scan.renderedChanges e with
    | say text => rfl
    | stop => rw [join, List.append_assoc]
    | pass => rfl

/-- The transcript has the paragraphs of the stream. -/
theorem transcript_paragraphs (log : List Event)
    (receipts : List ((String × String) × String × ℕ)) :
    (assistantTexts (transcript log receipts)).filter (· ≠ []) =
      join [] (tokens (.ofEvents receipts log) [] log) := by
  have hvisible : ∀ items : List Item, assistantTexts (items.filter Item.visible) = assistantTexts items :=
    fun items => by
      rw [assistantTexts, List.filterMap_filter]
      refine List.filterMap_congr fun item _ => ?_
      cases item with
      | event => cases Item.visible _ <;> rfl
      | _ => rfl
  rw [transcript, hvisible, foldl_paragraphs]
  rfl

end transcript

section collector

/-- What a collector does with its state: it scans a text, or it records an event. -/
inductive Act where
  | scan (body : List Char) (user : Bool)
  | record (event : EventKind)

def act (parse : String → Option Resources.Url) (project : Option String) (st : State) : Act → State
  | .scan body user => scan parse project st body user
  | .record event => Collector.record project st event

/-- The scan of a text that has ended. -/
def flushed (body : List Char) (kind : BodyKind) : List Act :=
  if body ≠ [] then [.scan body (kind = .user)] else []

/-- What a collector does with these events, and with the text that may go on. -/
def acts : List Char → BodyKind → List EventKind → List Act
  | body, kind, [] => flushed body kind
  | body, kind, .text text :: events =>
    if kind = .text then acts (body ++ text.toList) .text events
    else flushed body kind ++ acts text.toList .text events
  | body, kind, .user text _ :: events => flushed body kind ++ acts text.toList .user events
  | body, kind, .queuedMessageSent text _ :: events => flushed body kind ++ acts text.toList .user events
  | body, kind, event :: events => flushed body kind ++ .record event :: acts [] kind events

/-- The text of a scan of the assistant's. -/
def assistantScan : Act → Option (List Char)
  | .scan body false => some body
  | _ => none

/-- The texts that a collector scans as the assistant's. -/
def assistantScans (log : List Event) : List (List Char) :=
  (acts [] .none (log.map (·.event))).filterMap assistantScan

theorem flush_eq (c : Collector) : c.flush parse =
    { c with state := (flushed c.body c.bodyKind).foldl (act parse c.project) c.state, body := [] } := by
  unfold Collector.flush flushed
  split
  · rfl
  · rename_i hbody
    rw [← not_not.1 hbody]
    rfl

/-- What a collector shows is what it does with its state. -/
theorem shown_acts : ∀ (events : List EventKind) (c : Collector),
    ((events.foldl (Collector.append parse) c).snapshot parse true).1 =
      ((acts c.body c.bodyKind events).foldl (act parse c.project) c.state).shown
  | [], c => by
    unfold Collector.snapshot acts flushed
    by_cases hbody : c.body = []
    · simp [hbody]
    · rw [if_neg (by simp [hbody]), if_pos hbody]
      rfl
  | event :: events, c => by
    rw [List.foldl_cons, shown_acts events]
    cases event with
    | text text =>
      rw [Collector.append, Collector.say, acts]
      by_cases hkind : c.bodyKind = .text
      · simp [hkind]
      · simp [Ne.symm hkind, hkind, flush_eq, List.foldl_append]
    | user text _ | queuedMessageSent text _ =>
      rw [Collector.append, Collector.say, acts]
      simp [flush_eq, List.foldl_append]
    | _ =>
      rw [Collector.append, acts, flush_eq, List.foldl_append]
      · rfl
      all_goals simp

theorem flushed_scans (body : List Char) (kind : BodyKind) :
    (flushed body kind).filterMap assistantScan = if kind = .user then [] else emit body := by
  unfold flushed
  rcases body with _ | ⟨c, body⟩ <;> cases kind <;> rfl

/-- An event as a collector takes it. -/
def haltOf : EventKind → Token Char
  | .text text => .say text.toList
  | _ => .stop

/-- A collector takes all but a text for an end. -/
theorem acts_scans : ∀ (log : List Event) (m : TranscriptMaps) (rendered : List String)
    (body : List Char) (kind : BodyKind), (kind = .none → body = []) →
    (acts body kind (log.map (·.event))).filterMap assistantScan =
      join (if kind = .user then [] else body) ((tokens m rendered log).map Token.halt) := by
  intro log
  induction log with
  | nil =>
    intro m rendered body kind _
    rw [List.map_nil, acts, flushed_scans, tokens, List.map_nil, join]
    split <;> rfl
  | cons e log ih =>
    intro m rendered body kind hkind
    have hstop : ∀ b, emit (if kind = .user then ([] : List Char) else body) ++ b =
        (flushed body kind).filterMap assistantScan ++ b := fun b => by
      rw [flushed_scans]
      split <;> rfl
    have htoken : (token m rendered e).halt = haltOf e.event := by
      unfold token haltOf
      cases e.event <;> dsimp only <;> (try split) <;> rfl
    rw [List.map_cons, tokens, List.map_cons, htoken]
    have ih := ih m (rendering rendered e)
    have htext : BodyKind.text ≠ .none := by simp
    cases e.event with
    | text text =>
      rw [acts, haltOf, join]
      cases kind with
      | text => exact ih (body ++ text.toList) .text (absurd · htext)
      | user =>
        rw [if_neg (by simp), List.filterMap_append, flushed_scans]
        exact ih text.toList .text (absurd · htext)
      | none =>
        rw [hkind rfl]
        exact ih text.toList .text (absurd · htext)
    | user text _ | queuedMessageSent text _ =>
      rw [acts, haltOf, join, List.filterMap_append, hstop, ih text.toList .user (by simp)]
      · rfl
      all_goals simp
    | _ =>
      rw [acts, haltOf, join, List.filterMap_append, hstop, List.filterMap_cons_none,
        ih [] kind fun _ => rfl, ite_self]
      · rfl
      all_goals simp

end collector

/-- What is found in the texts that a collector scans as the assistant's, and in the assistant's items
of the transcript. -/
def TakesParagraphs (parse : String → Option Resources.Url) (log : List Event) : Prop :=
  ∀ find, (∃ body ∈ assistantScans log, find ∈ found parse body) ↔
    ∃ body ∈ assistantTexts (transcript log (queuedInputReceipts log)), find ∈ found parse body

/-- No event that makes no row stands between two texts of one paragraph. -/
def UnbrokenLog (log : List Event) : Prop :=
  Unbroken (tokens (.ofEvents (queuedInputReceipts log) log) [] log)

theorem found_nil (parse : String → Option Resources.Url) : found parse [] = [] := rfl

/-- Task information is what its scans and its other events make. The scans of the assistant's texts
are those of the paragraphs of the transcript just when no event that makes no row stands within one
of them, and then what is found in the ones is what is found in the others. -/
theorem scans_iff (parse : String → Option Resources.Url) (heap : ℕ → Event) (events : List ℕ)
    (sessionId projectPath : Option String) :
    let log := (ordered heap { events, sessionId, projectPath }).map heap
    taskInfo parse heap events sessionId projectPath =
        ((acts [] .none (log.map (·.event))).foldl (act parse projectPath) {}).shown ∧
      (assistantScans log = (assistantTexts (transcript log (queuedInputReceipts log))).filter (· ≠ []) ↔
        UnbrokenLog log) ∧
      (UnbrokenLog log → TakesParagraphs parse log) := by
  intro log
  have hiff : assistantScans log =
      (assistantTexts (transcript log (queuedInputReceipts log))).filter (· ≠ []) ↔ UnbrokenLog log := by
    rw [transcript_paragraphs, assistantScans,
      acts_scans log (.ofEvents (queuedInputReceipts log) log) [] [] .none fun _ => rfl]
    exact join_halt_iff
  refine ⟨?_, hiff, fun h find => ?_⟩
  · rw [taskInfo, (Reader.read_spec Reader.kept_new).1, Reader.collect, shown_acts, List.map_map]
    rfl
  · rw [hiff.2 h]
    constructor
    · rintro ⟨body, hbody, hfind⟩
      exact ⟨body, (List.mem_filter.1 hbody).1, hfind⟩
    · rintro ⟨body, hbody, hfind⟩
      have hne : body ≠ [] := by
        rintro rfl
        rw [found_nil] at hfind
        cases hfind
      exact ⟨body, List.mem_filter.2 ⟨hbody, by simpa using hne⟩, hfind⟩

/-- An address with the usage of a request within it. -/
def brokenAddress (i : ℕ) : Event where
  seq := i
  sessionId := "s"
  atMs := 0
  event := [.text "https://example.com/pa", .usage none none, .text "ge"].getD i (.notice "")

/-- `new URL`, of an address that it leaves as it is. -/
def plainUrl (href : String) : Option Resources.Url := some ⟨"https:", "", "", "example.com", href⟩

/-- The front of an address is listed, which the transcript does not have. -/
theorem not_takesParagraphs_broken :
    ¬TakesParagraphs plainUrl ([0, 1, 2].map brokenAddress) ∧
      (taskInfo plainUrl brokenAddress [0, 1, 2] (some "s") none).links.map (·.url) =
        ["https://example.com/pa"] := by
  refine ⟨fun h => ?_, by decide +kernel⟩
  have hscans : assistantScans ([0, 1, 2].map brokenAddress) =
      ["https://example.com/pa".toList, "ge".toList] := rfl
  have hitems : assistantTexts (transcript ([0, 1, 2].map brokenAddress)
      (queuedInputReceipts ([0, 1, 2].map brokenAddress))) = ["https://example.com/page".toList] := rfl
  have hpart : found plainUrl "https://example.com/pa".toList =
      [.link "https://example.com/pa".toList []] := rfl
  have hwhole : found plainUrl "https://example.com/page".toList =
      [.link "https://example.com/page".toList []] := rfl
  obtain ⟨body, hbody, hfind⟩ := (h (.link "https://example.com/pa".toList [])).1
    ⟨_, by rw [hscans]; exact List.mem_cons_self, by rw [hpart]; exact List.mem_cons_self⟩
  rw [hitems] at hbody
  obtain rfl := List.mem_singleton.1 hbody
  rw [hwhole] at hfind
  exact absurd (List.mem_singleton.1 hfind) (by decide)

end TaskInfo

end LatteWork
