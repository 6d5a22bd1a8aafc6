import LatteWork.Proofs.ChildRows
import LatteWork.Proofs.ShownTexts
import LatteWork.Runtime.Process

/-!
# The credential in what is shown

Every event is redacted on its own, and texts are joined afterwards: those of a session when its
log is read, those of a child when they are written. What is shown then has no credential as long
as none runs over the cut between two texts that are joined (`credential_withheld`); an agent that
cuts its texts inside the credential has it shown whole (`split_credential_shown`).
-/

namespace LatteWork

open Fallible Table Occurrence

/-- What was said since the last removal in the run of texts that is being joined: in a session's
log, and in the snapshot of each of its children. -/
structure Watch where
  log : List Char := []
  child : String → List Char := fun _ => []

namespace EventKind

/-- What is watched after an event. -/
def stretched (p before : List Char) (e : EventKind) : List Char :=
  match e.asText with
  | some t => stretch p 0 before t.toList
  | none => []

/-- The event is a text that ends an occurrence of `p` which began before it. -/
def Completes (p before : List Char) (e : EventKind) : Prop :=
  match e.asText with
  | some t => Straddles p before (lead p t.toList)
  | none => False

instance (p before : List Char) (e : EventKind) : Decidable (e.Completes p before) := by
  unfold Completes
  split <;> infer_instance

end EventKind

section

variable (fromValue : Json → Option AgentEvent) (parse : String → Option Json)
  (config : LaunchConfig) (id : String) (p : List Char)

/-- What is watched after a report that was stored. -/
def Watch.next (s : Store) (w : Watch) : Report → Watch
  | .event e => { w with log := e.event.stretched p w.log }
  | .child toolUseId e =>
    match s.subagentTask id toolUseId with
    | some taskId =>
      { w with child := Function.update w.child taskId (e.event.stretched p (w.child taskId)) }
    | none => w

/-- A report, and what is watched. A refused one changes nothing. -/
def watchStep (x : Transcripts × Watch) (r : Report × ℕ) : Transcripts × Watch :=
  match x.1.record fromValue parse config id r with
  | .ok t => (t, x.2.next id p x.1.store r.1)
  | .error _ => x

/-- A report that shows no credential: no text completes one across the cut to the text it is
joined to, and no value of a child's that is turned into text has one in its JSON text. -/
def Withheld (x : Transcripts × Watch) (r : Report × ℕ) : Prop :=
  match r.1 with
  | .event e => ¬e.event.Completes p x.2.log
  | .child toolUseId e => ∀ taskId ∈ x.1.store.subagentTask id toolUseId,
    (∀ row ∈ x.1.openText id taskId, row.1.truncated = false →
      ¬e.event.Completes p (x.2.child taskId)) ∧
    ∀ r ∈ (config.redactEvent fromValue e).toOption, ∀ v ∈ r.event.payload,
      32 * 1024 < v.size → ¬p <:+: v.render.toList

/-- Watching changes nothing. -/
theorem watch_follows (reports : List (Report × ℕ)) (x : Transcripts × Watch) :
    (Runs.run (watchStep fromValue parse config id p) x reports).1 =
      Runs.run (Runs.attempt (Transcripts.record fromValue parse config id)) x.1 reports := by
  induction reports generalizing x with
  | nil => rfl
  | cons r rest ih =>
    simp only [Runs.run, List.foldl_cons] at ih ⊢
    rw [ih]
    congr 1
    unfold watchStep
    rcases h : x.1.record fromValue parse config id r with e | t
    · exact (Runs.attempt_error h).symm
    · exact (Runs.attempt_ok h).symm

end

/-- An actor stores its agent's event the way a run of reports does. -/
theorem logEvent_records {α : Type} (ctx : Setting α) (config : LaunchConfig) (e : AgentEvent)
    (parse : String → Option Json) (w : Actor α) :
    Prog.wp (Act.logEvent ctx config e)
      (fun _ w' => Transcripts.record ctx.fromValue parse config ctx.session { store := w.store }
        (.event e, w.outside.now) = .ok { store := w'.store })
      (fun _ w' => w'.store = w.store) w := by
  refine Prog.wp_bind.2 (Prog.wp_lift.2 ⟨fun r hr => ?_, fun _ _ => rfl⟩)
  refine Prog.wp_bind.2 (Prog.wp_current.2 (Prog.wp_bind.2 (Prog.wp_lift.2 ⟨fun store hs => ?_,
    fun _ _ => rfl⟩)))
  have hstore : w.store.event ctx.session r.event w.outside.now = .ok store := hs
  refine Prog.wp_bind.2 (Prog.wp_update.2 (Prog.wp_update.2 ?_))
  simp [Transcripts.record, hr, hstore, bind, Except.bind]

/-- The rows of a session in the order they were logged. -/
def Store.loggedRows (s : Store) (id : String) : List EventRow :=
  s.events.filter (·.sessionId = id)

/-- Neighbouring texts of a list of rows. -/
def TextRows (block : List EventRow) (texts : List String) : Prop :=
  block.map (·.event) = texts.map .text

/-- The log of a session shows no credential, however it is cut: its rows have none, and neither
has a run of neighbouring texts. A run at the end ends as the watched text does. -/
structure LogWithheld (p : List Char) (id : String) (s : Store) (w : List Char) : Prop where
  numbered : s.Numbered
  session : ∃ x, s.session id = .ok x
  rows : ∀ row ∈ s.events, row.sessionId = id → row.event.Clean p
  tasks : ∀ row ∈ s.subagents, row.sessionId = id → ¬p <:+: row.task.id.toList
  runs : ∀ block texts, block <:+: s.loggedRows id → TextRows block texts →
    ¬p <:+: (String.join texts).toList
  ends : ∀ block texts, block <:+ s.loggedRows id → TextRows block texts →
    Tails marker (String.join texts).toList w

theorem TextRows.concat {block : List EventRow} {row : EventRow} {texts : List String}
    (h : TextRows (block ++ [row]) texts) :
    ∃ before text, texts = before ++ [text] ∧ TextRows block before ∧ row.event = .text text := by
  rw [TextRows, List.map_append, List.map_singleton] at h
  obtain ⟨before, last, rfl, hbefore, hlast⟩ := List.append_eq_map_iff.1 h
  obtain ⟨text, rfl, htext⟩ := List.map_eq_singleton_iff.1 hlast
  exact ⟨before, text, rfl, hbefore.symm, htext.symm⟩

/-- The strings of a child's update under another name. -/
theorem subagent_strings {u : SubagentUpdate} {name text : String}
    (h : text ∈ (EventKind.subagent { u with id := name }).toJson.strings) :
    text = name ∨ text ∈ (EventKind.subagent u).toJson.strings := by
  obtain ⟨rest, hrest⟩ : ∃ rest, ∀ name, ({ u with id := name } : SubagentUpdate).toJson =
      .obj (("id", .str name) :: rest) := ⟨(u.toJson.obj?.getD []).tail, fun _ => rfl⟩
  have hu : u.toJson = .obj (("id", .str u.id) :: rest) := hrest u.id
  simp only [EventKind.toJson, EventKind.kind, EventKind.fields, hrest, Json.strings,
    Json.fieldStrings, List.mem_append, List.append_nil, List.mem_singleton] at h
  simp only [EventKind.toJson, EventKind.kind, EventKind.fields, hu, Json.strings,
    Json.fieldStrings, List.mem_append, List.append_nil, List.mem_singleton]
  tauto

/-- What `event` logs: one row that says no more than the event and the name of its child. -/
theorem Store.event_logged {s s' : Store} {id : String} {e : EventKind} {now : ℕ} {p : List Char}
    (he : e.Clean p) (htasks : ∀ row ∈ s.subagents, row.sessionId = id → ¬p <:+: row.task.id.toList)
    (h : s.event id e now = .ok s') :
    ∃ e', s'.events = s.events ++ [{ seq := s.lastSeq + 1, sessionId := id, atMs := now, event := e' }] ∧
      s'.sessions = s.sessions ∧ e'.asText = e.asText ∧ e'.Clean p ∧
      ∀ row ∈ s'.subagents, row.sessionId = id → ¬p <:+: row.task.id.toList := by
  unfold Store.event at h
  split at h
  · simp only [bind_eq_ok, Except.ok.injEq] at h
    obtain ⟨_, _, _, _, rfl⟩ := h
    exact ⟨_, rfl, rfl, rfl, he, htasks⟩
  · rename_i u
    simp only [bind_eq_ok, Except.ok.injEq] at h
    obtain ⟨_, _, rfl⟩ := h
    have hid : ¬p <:+: u.id.toList := he _ (by
      simp [EventKind.toJson, EventKind.fields, SubagentUpdate.toJson, Json.strings,
        Json.fieldStrings])
    have htask : ¬p <:+: ((s.subagentFor id u).getD (Subagent.created u now)).id.toList := by
      rcases hfor : s.subagentFor id u with _ | task
      · exact hid
      · rw [Store.subagentFor, Option.map_eq_some_iff] at hfor
        obtain ⟨row, hrow, rfl⟩ := hfor
        have hmem := List.mem_of_mem_head? hrow
        rw [List.mem_insertionSort, List.mem_filter] at hmem
        exact htasks row hmem.1 (SubagentRow.names_iff.1 hmem.2).1
    refine ⟨_, rfl, rfl, rfl, fun text ht => ?_, fun row hrow hs => ?_⟩
    · rcases subagent_strings ht with rfl | ht
      · simpa [Store.recordSubagent] using htask
      · exact he text ht
    · rcases Store.mem_upsert hrow with rfl | hrow
      · simpa using htask
      · exact htasks row hrow hs
  · simp only [bind_eq_ok, Except.ok.injEq] at h
    obtain ⟨_, _, rfl⟩ := h
    exact ⟨_, rfl, rfl, rfl, he, htasks⟩

section Log

variable {config : LaunchConfig} {p : List Char} {fromValue : Json → Option AgentEvent}
  {e r : AgentEvent} {id : String} {s s' : Store} {w : List Char} {now : ℕ}

theorem join_concat (texts : List String) (text : String) :
    (String.join (texts ++ [text])).toList = (String.join texts).toList ++ text.toList := by
  simp [String.join_append, String.join_cons]

/-- A text behind a run: what is shown of both, and what they can end with. -/
theorem Tails.text (hc : config.Redacts p) {a : List Char} {text : String} (ha : Tails marker a w)
    (hclean : ¬p <:+: a) (hno : ¬Straddles p w (lead p text.toList)) :
    ¬p <:+: a ++ (config.redact text).toList ∧
      Tails marker (a ++ (config.redact text).toList) (stretch p 0 w text.toList) := by
  rw [hc.redact]
  exact ⟨clean_replace hc.nonempty (by decide) hc.apart _ 0 _ _ ha hclean (fun _ => hno) (by simp),
    tails_replace (by decide) _ 0 _ _ ha⟩

/-- A report that is logged. -/
theorem LogWithheld.event (h : LogWithheld p id s w) (hc : config.Redacts p)
    (hread : ReadsBack fromValue config) (hr : config.redactEvent fromValue e = .ok r)
    (hno : ¬e.event.Completes p w) (he : s.event id r.event now = .ok s') :
    LogWithheld p id s' (e.event.stretched p w) := by
  obtain ⟨x, hx⟩ := h.session
  obtain ⟨e', hevents, hsessions, htext, hclean, htasks⟩ :=
    Store.event_logged (redactEvent_clean hc hread hr) h.tasks he
  rw [redactEvent_asText hc hread hr] at htext
  generalize hnew : (EventRow.mk (s.lastSeq + 1) id now e') = new at hevents
  have hlog : s'.loggedRows id = s.loggedRows id ++ [new] := by
    rw [Store.loggedRows, hevents, List.filter_append, Store.loggedRows, ← hnew]
    simp
  -- a run that ends with the new row is a run of the log and the text of the row
  have hrun : ∀ block texts, block <:+ s'.loggedRows id → TextRows block texts →
      ¬p <:+: (String.join texts).toList ∧
        Tails marker (String.join texts).toList (e.event.stretched p w) := by
    intro block texts hblock hrows
    rw [hlog, List.suffix_concat_iff] at hblock
    obtain rfl | ⟨before, rfl, hbefore⟩ := hblock
    · obtain rfl : texts = [] := by simpa [TextRows, eq_comm] using hrows
      exact ⟨by simpa using hc.nonempty, fun u _ hu => by simp_all⟩
    · obtain ⟨texts, text, rfl, hrest, hlast⟩ := hrows.concat
      rw [← hnew] at hlast
      obtain ⟨t, ht, rfl⟩ : ∃ t, e.event.asText = some t ∧ config.redact t = text := by
        simpa [show e' = .text text from hlast] using htext.symm
      rw [EventKind.Completes, ht] at hno
      rw [join_concat, EventKind.stretched, ht]
      exact Tails.text hc (h.ends before texts hbefore hrest)
        (h.runs before texts hbefore.isInfix hrest) hno
  refine ⟨(Store.apply_grew (o := (.event id r, now)) he).numbered h.numbered,
    ⟨x, by rwa [Store.session_eq_ok, hsessions, ← Store.session_eq_ok]⟩, fun row hrow hs => ?_, htasks,
    fun block texts hblock hrows => ?_, fun block texts hblock hrows => (hrun _ _ hblock hrows).2⟩
  · rw [hevents, List.mem_append, List.mem_singleton] at hrow
    rcases hrow with hrow | rfl
    · exact h.rows row hrow hs
    · rwa [← hnew]
  · rw [hlog, List.infix_concat_iff] at hblock
    rcases hblock with hblock | hblock
    · exact (hrun block texts (hlog ▸ hblock) hrows).1
    · exact h.runs block texts hblock hrows

end Log

/-- The snapshots of a session's children show no credential. A text that can still be joined to
ends as the watched one does. -/
structure ChildrenWithheld (p : List Char) (id : String) (t : Transcripts)
    (w : String → List Char) : Prop where
  keyed : Keyed ChildEventRow.seq t.events
  bounded : ∀ row ∈ t.events, row.seq ≤ t.lastSeq
  rows : ∀ row ∈ t.events, row.sessionId = id → row.event.Clean p
  ends : ∀ taskId row text, t.openText id taskId = some (row, text) → row.truncated = false →
    Tails marker text.toList (w taskId)
  native : ∀ row ∈ t.native, row.sessionId ≠ id

namespace Transcripts

variable {t : Transcripts} {id taskId : String} {row : ChildEventRow} {text : String}

theorem openText_eq_some : t.openText id taskId = some (row, text) ↔
    (t.taskRows id taskId).getLast? = some row ∧ row.event = .text text := by
  simp only [openText, Option.bind_eq_some_iff, Option.map_eq_some_iff, Prod.mk.injEq,
    EventKind.asText_eq_some]
  constructor
  · rintro ⟨_, hlast, _, htext, rfl, rfl⟩
    exact ⟨hlast, htext⟩
  · rintro ⟨hlast, htext⟩
    exact ⟨row, hlast, text, htext, rfl, rfl⟩

theorem openText_mem (h : t.openText id taskId = some (row, text)) :
    row ∈ t.events ∧ row.of id taskId ∧ row.event = .text text := by
  rw [openText_eq_some] at h
  obtain ⟨hmem, hof⟩ := List.mem_filter.1 (List.mem_of_getLast? h.1)
  exact ⟨hmem, hof, h.2⟩

theorem openText_congr {t' : Transcripts} (h : t'.events = t.events) :
    t'.openText id taskId = t.openText id taskId := by
  simp only [openText, taskRows, h]

/-- The stream has no part in the snapshot. -/
theorem recordStream_snapshot (parse : String → Option Json) (event : EventKind) (now : ℕ) :
    (t.recordStream parse id taskId event now).events = t.events ∧
      (t.recordStream parse id taskId event now).lastSeq = t.lastSeq ∧
      (t.recordStream parse id taskId event now).store = t.store ∧
      (t.recordStream parse id taskId event now).native = t.native := by
  unfold recordStream
  dsimp only
  split <;> simp [insertStream]

variable {event : EventKind} {truncated : Bool} {now : ℕ}

/-- The row a new event is in is the open one of its child; no other child's row changes. -/
theorem openText_insert (other : String) :
    (t.insertEvent id taskId event truncated now).openText id other =
      if other = taskId then
        event.asText.map fun text =>
          ({ seq := t.lastSeq + 1, sessionId := id, taskId, atMs := now, event, truncated }, text)
      else t.openText id other := by
  simp only [openText, taskRows, insertEvent, List.filter_append]
  split
  · rename_i heq
    simp [heq, ChildEventRow.of]
  · rename_i hne
    simp [ChildEventRow.of, Ne.symm hne]

/-- The row that is updated stays the open one of its child. -/
theorem openText_update (hseq : Keyed ChildEventRow.seq t.events)
    (h : t.openText id taskId = some (row, text)) (other : String) :
    (t.updateEvent row.seq event truncated now).openText id other =
      if other = taskId then
        event.asText.map fun text => ({ row with atMs := now, event, truncated }, text)
      else t.openText id other := by
  obtain ⟨hmem, hof, -⟩ := openText_mem h
  simp only [openText, taskRows, updateEvent]
  rw [filter_updateWhere (by simp [ChildEventRow.of])]
  split
  · rename_i heq
    subst heq
    rw [getLast?_updateWhere]
    rw [openText_eq_some, taskRows] at h
    simp [h.1]
  · rename_i hne
    rw [updateWhere_of_none]
    intro a ha
    obtain ⟨ha, haof⟩ := List.mem_filter.1 ha
    refine decide_eq_false fun heq => hne ?_
    obtain rfl := hseq.eq ha hmem heq
    simp_all [ChildEventRow.of]

/-- An event joins the open text of its child, or has a row of its own. -/
theorem recordSnapshot_cases {t' : Transcripts}
    (h : t.recordSnapshot id taskId event now = .ok t') :
    ∃ e cut, boundedSubagentEvent event = .ok (e, cut) ∧
      ((∃ u row joined, e.asText = some u ∧ t.openText id taskId = some (row, joined) ∧
          t' = t.updateEvent row.seq
            (.text (clipText (if row.truncated then joined else joined ++ u)).1)
            (cut || (row.truncated ||
              (clipText (if row.truncated then joined else joined ++ u)).2)) now) ∨
        t' = t.insertEvent id taskId e cut now) := by
  simp only [recordSnapshot, bind_eq_ok] at h
  obtain ⟨⟨e, cut⟩, hb, h⟩ := h
  refine ⟨e, cut, hb, ?_⟩
  rcases he : e.asText with _ | u
  · simp only [he, Except.ok.injEq] at h
    exact .inr h.symm
  · rcases ho : t.openText id taskId with _ | ⟨row, joined⟩
    · simp only [he, ho, Except.ok.injEq] at h
      exact .inr h.symm
    · simp only [he, ho, Except.ok.injEq] at h
      exact .inl ⟨u, row, joined, rfl, rfl, h.symm⟩

end Transcripts

section Children

variable {config : LaunchConfig} {p : List Char} {fromValue : Json → Option AgentEvent}
  {e r : AgentEvent} {id taskId : String} {t t' : Transcripts} {w : String → List Char} {now : ℕ}

section Bounded

variable {e' : EventKind} {cut : Bool} {u : String} {a before : List Char}
  (hc : config.Redacts p) (hread : ReadsBack fromValue config)
  (hr : config.redactEvent fromValue e = .ok r) (hb : boundedSubagentEvent r.event = .ok (e', cut))
  (hu : e'.asText = some u)

include hc hread hr hb hu

/-- The text of a bounded event is what clipping leaves of the redacted text of the report. -/
theorem bounded_source : ∃ text, e.event.asText = some text ∧
    u = (clipText (config.redact text)).1 ∧ cut = (clipText (config.redact text)).2 := by
  have hsame := redactEvent_asText hc hread hr
  rw [bounded_asText hb, hsame, Option.map_map] at hu
  obtain ⟨text, htext, rfl⟩ := Option.map_eq_some_iff.1 hu
  have hrtext : r.event = .text (config.redact text) := by
    rw [← EventKind.asText_eq_some, hsame, htext]
    rfl
  rw [hrtext] at hb
  exact ⟨text, htext, rfl, bounded_text hb⟩

/-- Behind another text, it completes no credential. -/
theorem bounded_shown (hne : '\n' ∉ p) (hmark : ¬p <:+: clippedMark.toList)
    (ha : Tails marker a before) (hclean : ¬p <:+: a) (hno : ¬e.event.Completes p before) :
    ¬p <:+: a ++ u.toList := by
  obtain ⟨text, htext, rfl, -⟩ := bounded_source hc hread hr hb hu
  rw [EventKind.Completes, htext] at hno
  exact clipText_clean hne hmark (Tails.text hc ha hclean hno).1

/-- Behind another text, it ends as the watched text does when nothing was cut. -/
theorem bounded_ends (ha : Tails marker a before) (hcut : cut = false) :
    Tails marker (a ++ u.toList) (e.event.stretched p before) := by
  obtain ⟨text, htext, rfl, rfl⟩ := bounded_source hc hread hr hb hu
  rw [clipText_whole hcut, hc.redact, EventKind.stretched, htext]
  exact tails_replace (by decide) _ 0 _ _ ha

end Bounded

theorem ChildrenWithheld.of_snapshot (h : ChildrenWithheld p id t w)
    (hevents : t'.events = t.events) (hlast : t'.lastSeq = t.lastSeq) (hnative : t'.native = t.native) :
    ChildrenWithheld p id t' w := by
  refine ⟨by rw [hevents]; exact h.keyed, by rw [hevents, hlast]; exact h.bounded,
    by rw [hevents]; exact h.rows, fun taskId row text ho => h.ends taskId row text ?_,
    by rw [hnative]; exact h.native⟩
  rwa [← Transcripts.openText_congr hevents]

/-- A report of a child that is put in its snapshot. -/
theorem ChildrenWithheld.record (h : ChildrenWithheld p id t w) (hc : config.Redacts p)
    (hread : ReadsBack fromValue config) (hne : '\n' ∉ p) (hmark : ¬p <:+: clippedMark.toList)
    (hr : config.redactEvent fromValue e = .ok r)
    (hno : ∀ row ∈ t.openText id taskId, row.1.truncated = false →
      ¬e.event.Completes p (w taskId))
    (hlarge : ∀ v ∈ r.event.payload, 32 * 1024 < v.size → ¬p <:+: v.render.toList)
    (hs : t.recordSnapshot id taskId r.event now = .ok t') :
    ChildrenWithheld p id t' (Function.update w taskId (e.event.stretched p (w taskId))) := by
  obtain ⟨e', cut, hb, hcases⟩ := Transcripts.recordSnapshot_cases hs
  have hclean : e'.Clean p :=
    bounded_clean hne hmark (redactEvent_clean hc hread hr) hlarge hb
  rcases hcases with ⟨u, row, joined, hu, ho, rfl⟩ | rfl
  · -- the text joins the child's open one
    obtain ⟨hmem, hof, htext⟩ := Transcripts.openText_mem ho
    have hrow : (EventKind.text joined).Clean p :=
      htext ▸ h.rows row hmem (by simp_all [ChildEventRow.of])
    have hwhole : row.truncated = false → ¬p <:+: joined.toList ++ u.toList := fun ht =>
      bounded_shown hc hread hr hb hu hne hmark (h.ends taskId row joined ho ht) hrow.text
        (hno _ ho ht)
    have hshown : ¬p <:+:
        (clipText (if row.truncated then joined else joined ++ u)).1.toList := by
      refine clipText_alone hne hmark ?_
      rcases ht : row.truncated with _ | _
      · simpa [ht] using hwhole ht
      · simpa using hrow.text
    refine ⟨?_, ?_, ?_, ?_, h.native⟩
    · exact h.keyed.updateWhere fun _ _ => rfl
    · intro a ha
      obtain ⟨b, hbm, rfl⟩ := mem_updateWhere.1 ha
      have hle := h.bounded b hbm
      split
      · exact hle
      · exact hle
    · intro a ha hsession
      obtain ⟨b, hbm, rfl⟩ := mem_updateWhere.1 ha
      split
      · exact hrow.retext hshown
      · rename_i hother
        rw [if_neg hother] at hsession
        exact h.rows b hbm hsession
    · intro other a text hopen hcut
      rw [Transcripts.openText_update h.keyed ho] at hopen
      split at hopen
      · rename_i heq
        subst heq
        obtain ⟨_, htext', heq⟩ := Option.map_eq_some_iff.1 hopen
        simp only [Prod.mk.injEq] at heq
        obtain ⟨rfl, rfl⟩ := heq
        simp only [Bool.or_eq_false_iff] at hcut
        obtain ⟨hcut, ht, hfull⟩ := hcut
        rw [EventKind.asText_text, Option.some.injEq] at htext'
        rw [← htext', clipText_whole hfull, Function.update_self, ht]
        simpa using bounded_ends hc hread hr hb hu (h.ends other row joined ho ht) hcut
      · rename_i hother
        rw [Function.update_of_ne hother]
        exact h.ends other a text hopen hcut
  · -- the event has a row of its own
    refine ⟨?_, ?_, ?_, ?_, h.native⟩
    · refine h.keyed.append fun a ha => ?_
      have := h.bounded a ha
      simp only
      omega
    · intro a ha
      rcases List.mem_append.1 ha with ha | ha
      · exact Nat.le_succ_of_le (h.bounded a ha)
      · rw [List.mem_singleton.1 ha]
        rfl
    · intro a ha hsession
      rcases List.mem_append.1 ha with ha | ha
      · exact h.rows a ha hsession
      · rw [List.mem_singleton.1 ha]
        exact hclean
    · intro other a text hopen hcut
      rw [Transcripts.openText_insert] at hopen
      split at hopen
      · rename_i heq
        subst heq
        obtain ⟨u, hu, heq⟩ := Option.map_eq_some_iff.1 hopen
        simp only [Prod.mk.injEq] at heq
        obtain ⟨rfl, rfl⟩ := heq
        rw [Function.update_self]
        have hnil : Tails marker [] (w other) := fun v _ hv => by simp_all
        simpa using bounded_ends hc hread hr hb hu hnil hcut
      · rename_i hother
        rw [Function.update_of_ne hother]
        exact h.ends other a text hopen hcut

end Children

/-- No string of an event shows the credential. -/
def Shows (credential : String) (e : Event) : Prop :=
  ∃ text ∈ e.event.toJson.strings, credential.toList <:+: text.toList

/-- Rows that are shown as neighbouring texts are neighbouring texts. -/
theorem textRows_of_shown {agent id : String} : ∀ {block : List EventRow} {texts : List String},
    TextRun (block.map (EventRow.shown agent id)) texts → TextRows block texts
  | [], texts, h => by
    obtain rfl : texts = [] := by simpa [TextRun, eq_comm] using h
    rfl
  | row :: block, texts, h => by
    rcases texts with _ | ⟨text, texts⟩
    · simp [TextRun] at h
    · simp only [TextRun, List.map_cons, List.cons.injEq] at h
      have hrest : TextRows block texts := textRows_of_shown h.2
      simpa [TextRows, shown_text h.1] using hrest

section Shown

variable {p : List Char} {id : String} {x : Session}
  (hown : ∀ text ∈ serverTexts, ¬p <:+: text.toList)

include hown

/-- A page of `history` has none. -/
theorem LogWithheld.history {s : Store} {w : List Char} (h : LogWithheld p id s w)
    {before : Option ℕ} {page : HistoryPage} (hp : s.history id before = .ok page) :
    ∀ e ∈ page.events, e.event.Clean p := by
  obtain ⟨x, hx⟩ := h.session
  obtain ⟨page', block, -, hok, hevents, -, hcut, -⟩ :=
    Store.history_cut (P := fun _ _ => True) (fun _ _ _ _ _ _ => trivial) hx trivial before
  obtain rfl : page' = page := Except.ok.inj (hok.symm.trans hp)
  have hordered : s.Ordered := by
    rw [Store.Ordered, ← List.pairwise_map (f := EventRow.seq) (R := (· < ·)), h.numbered.1]
    exact List.pairwise_lt_range'
  have hblock : block <:+: s.loggedRows id := by
    have hbelow := Store.sessionLog_ordered hordered id
    rw [Store.loggedRows, ← Store.sessionLog_eq hordered]
    exact hcut.suffix.isInfix.trans (Paging.below_front hbelow before).isInfix
  intro e he
  rw [hevents] at he
  obtain hmem | ⟨run, texts, hrun, hrows, htext⟩ := (coalesce_runs _).1 e he
  · obtain ⟨row, hrow, rfl⟩ := List.mem_map.1 hmem
    obtain ⟨hlog, hsession⟩ := List.mem_filter.1 (hblock.subset hrow)
    rw [EventRow.shown_event]
    exact presented_clean hown (presentationData_clean hown
      (h.rows row hlog (by simpa using hsession)))
  · obtain ⟨rows, hpart, rfl⟩ := List.infix_map_iff.1 hrun
    have hjoin := h.runs rows texts (hpart.trans hblock) (textRows_of_shown hrows)
    intro text ht
    rw [htext, EventKind.strings_text] at ht
    rcases List.mem_cons.1 ht with rfl | ht
    · exact hown _ (by simp [serverTexts])
    · rwa [List.mem_singleton.1 ht]

/-- The loop of `subagent_transcript` reads rows that have none. -/
theorem transcriptScan_clean {s : Store} (hx : s.session id = .ok x) :
    ∀ {rows : List ChildEventRow} {events : List Event} {bytes : ℕ} {truncated : Bool}
      {out : List Event × Bool}, (∀ row ∈ rows, row.event.Clean p) →
      (∀ e ∈ events, e.event.Clean p) →
      Transcripts.transcriptScan s id events bytes truncated rows = .ok out →
      ∀ e ∈ out.1, e.event.Clean p
  | [], events, _, _, _, _, hevents, h => by
    obtain rfl := Except.ok.inj h
    exact hevents
  | row :: rows, events, _, _, _, hrows, hevents, h => by
    simp only [Transcripts.transcriptScan, Store.presentationEvent_eq hx, bind, Except.bind] at h
    split at h
    · obtain rfl := Except.ok.inj h
      exact hevents
    · refine transcriptScan_clean hx (fun r hr => hrows r (List.mem_cons_of_mem _ hr)) ?_ h
      intro e he
      rcases List.mem_cons.1 he with rfl | he
      · exact presented_clean hown (hrows row List.mem_cons_self)
      · exact hevents e he

/-- A transcript has none. -/
theorem ChildrenWithheld.transcript {t : Transcripts} {w : String → List Char}
    (h : ChildrenWithheld p id t w) (hx : t.store.session id = .ok x) {taskId : String}
    {out : List Event × Bool} (ho : t.subagentTranscript id taskId = .ok out) :
    ∀ e ∈ out.1, e.event.Clean p := by
  have hnative : t.native.find? (fun row => row.sessionId = id && row.taskId = taskId) = none :=
    List.find?_eq_none.2 fun row hrow => by simp [h.native row hrow]
  simp only [Transcripts.subagentTranscript, hnative, bind_eq_ok] at ho
  obtain ⟨_, _, _, _, ho⟩ := ho
  refine transcriptScan_clean hown hx (fun row hrow => ?_) (by simp) ho
  have hmem := List.mem_reverse.1 (List.mem_of_mem_take hrow)
  obtain ⟨hrow, hof⟩ := List.mem_filter.1 hmem
  exact h.rows row hrow (by simp_all [ChildEventRow.of])

end Shown

theorem validated_oneLine {parseUrl : String → Option Url} {provider : ResolvedProvider}
    (h : validateProvider parseUrl provider.metadata provider.credential = .ok ())
    (hne : provider.credential ≠ "") : '\n' ∉ provider.credential.toList := by
  simp only [validateProvider, bind_eq_ok] at h
  obtain ⟨_, _, _, _, _, _, _, _, _, _, _, _, _, _, _, _, h⟩ := h
  split at h
  · simp [hne] at h
  · intro hmem
    rw [bailIf_eq_ok] at h
    exact h (.inr (.inr (List.any_eq_true.2 ⟨'\n', hmem, by decide⟩)))

/-- What a run of reports keeps. -/
structure AllWithheld (p : List Char) (id : String) (x : Transcripts × Watch) : Prop where
  log : LogWithheld p id x.1.store x.2.log
  children : ChildrenWithheld p id x.1 x.2.child

section Step

variable {config : LaunchConfig} {p : List Char} {fromValue : Json → Option AgentEvent}
  {parse : String → Option Json} {id : String} {x : Transcripts × Watch}

theorem AllWithheld.step (hc : config.Redacts p) (hread : ReadsBack fromValue config)
    (hne : '\n' ∉ p) (hmark : ¬p <:+: clippedMark.toList) (r : Report × ℕ)
    (h : AllWithheld p id x) (hw : Withheld fromValue config id p x r) :
    AllWithheld p id (watchStep fromValue parse config id p x r) := by
  unfold watchStep
  rcases hrec : x.1.record fromValue parse config id r with _ | t
  · exact h
  obtain ⟨r, now⟩ := r
  cases r with
  | event e =>
    simp only [Transcripts.record, bind_eq_ok, Except.ok.injEq] at hrec
    obtain ⟨r, hr, store, hstore, rfl⟩ := hrec
    exact ⟨h.log.event hc hread hr hw hstore, h.children.of_snapshot rfl rfl rfl⟩
  | child toolUseId e =>
    simp only [Transcripts.record, Transcripts.subagentEvent, bind_eq_ok, orError_eq_ok] at hrec
    obtain ⟨r, hr, taskId, htask, hs⟩ := hrec
    obtain ⟨hevents, hlast, hstore, hnative⟩ :=
      @Transcripts.recordStream_snapshot x.1 id taskId parse r.event now
    obtain ⟨hcross, hlarge⟩ := hw taskId htask
    have hchildren := h.children.of_snapshot hevents hlast hnative
    have hkept : t.store = x.1.store := by
      obtain ⟨_, _, _, ⟨_, _, _, _, _, rfl⟩ | rfl⟩ := Transcripts.recordSnapshot_cases hs
      · exact hstore
      · exact hstore
    simp only [Watch.next, htask]
    refine ⟨by rw [hkept]; exact h.log, hchildren.record hc hread hne hmark hr ?_ ?_ hs⟩
    · rwa [Transcripts.openText_congr hevents]
    · exact hlarge r (by simp [hr, Except.toOption])

/-- The log of a session that starts a run: it shows no credential, and its newest row is no
text. -/
structure Starts (p : List Char) (id : String) (s : Store) : Prop where
  session : ∃ x, s.session id = .ok x
  rows : ∀ row ∈ s.events, row.sessionId = id → row.event.Clean p
  tasks : ∀ row ∈ s.subagents, row.sessionId = id → ¬p <:+: row.task.id.toList
  runs : ∀ block texts, block <:+: s.loggedRows id → TextRows block texts →
    ¬p <:+: (String.join texts).toList
  newest : ∀ row ∈ (s.loggedRows id).getLast?, row.event.asText = none

theorem Starts.withheld {s : Store} (h : Starts p id s) (hs : s.Numbered) :
    AllWithheld p id ({ store := s }, {}) where
  log := by
    refine ⟨hs, h.session, h.rows, h.tasks, h.runs, fun block texts hblock hrows => ?_⟩
    rcases block.eq_nil_or_concat with rfl | ⟨block, row, rfl⟩
    · obtain rfl : texts = [] := by simpa [TextRows, eq_comm] using hrows
      exact fun u _ hu => by simp_all
    · rw [List.concat_eq_append] at hblock hrows
      obtain ⟨_, text, -, -, htext⟩ := hrows.concat
      obtain ⟨before, hlog⟩ := hblock
      have := h.newest row (by simp [← hlog])
      simp [htext] at this
  children := ⟨by simp [Keyed], by simp, by simp, by simp [Transcripts.openText,
    Transcripts.taskRows], by simp⟩

end Step

/-- A provider's credential is not shown. Whatever an agent reports in a session whose log shows
none so far, no page of the session's history and no transcript of a child has a string with the
credential in it, as long as every report is withheld: no text delta completes an occurrence
across the cut to the text it is joined to, and no large value of a child's has it in its JSON
text. The credential must not be part of what the server writes of its own. -/
theorem credential_withheld (parseUrl : String → Option Url) (provider : ResolvedProvider)
    (hvalid : validateProvider parseUrl provider.metadata provider.credential = .ok ())
    (hne : provider.credential ≠ "") (hapart : provider.credential.toList.Disjoint marker)
    (hown : ∀ text ∈ serverTexts, ¬provider.credential.toList <:+: text.toList)
    (config : LaunchConfig) (hc : config.provider = some provider)
    (fromValue : Json → Option AgentEvent) (hread : ReadsBack fromValue config)
    (parse : String → Option Json) (projects : List Project) (ops : List (StoreOp × ℕ)) (id : String)
    (hstart : Starts provider.credential.toList id ((Store.empty projects).after ops))
    (reports : List (Report × ℕ))
    (hreports : Runs.Throughout (watchStep fromValue parse config id provider.credential.toList)
      (Withheld fromValue config id provider.credential.toList)
      ({ store := (Store.empty projects).after ops }, {}) reports) :
    let t := Runs.run (Runs.attempt (Transcripts.record fromValue parse config id))
      { store := (Store.empty projects).after ops } reports
    (∀ before page, t.store.history id before = .ok page →
      ∀ e ∈ page.events, ¬Shows provider.credential e) ∧
    ∀ taskId out, t.subagentTranscript id taskId = .ok out →
      ∀ e ∈ out.1, ¬Shows provider.credential e := by
  have hredacts := LaunchConfig.redacts hc hne hapart
  have hline := validated_oneLine hvalid hne
  have hmark := hown clippedMark (by simp [serverTexts])
  have h := Runs.throughout_keeps (P := AllWithheld provider.credential.toList id)
    (fun _ r hx hw => hx.step hredacts hread hline hmark r hw)
    (hstart.withheld (Store.after_numbered projects ops)) hreports
  have hfollows := watch_follows fromValue parse config id provider.credential.toList reports
    ({ store := (Store.empty projects).after ops }, {})
  intro t
  have hlog := h.log
  have hchildren := h.children
  rw [hfollows] at hlog hchildren
  obtain ⟨x, hx⟩ := hlog.session
  refine ⟨fun before page hp e he => ?_, fun taskId out ho e he => ?_⟩
  · rintro ⟨text, htext, hshown⟩
    exact hlog.history hown hp e he text htext hshown
  · rintro ⟨text, htext, hshown⟩
    exact hchildren.transcript hown hx ho e he text htext hshown

/-- A provider with a credential of four characters. -/
def keyed : ResolvedProvider where
  metadata := { id := "p", name := "P", protocol := .anthropicMessages, baseUrl := "https://h"
                model := "m", models := [], modelLabels := [], models1m := [], auth := .bearer }
  credential := "sk-9"

def keyedConfig : LaunchConfig := { provider := some keyed }

def keyedUrl (_ : String) : Option Url :=
  some { scheme := "https", host := some "h", username := "", password := none, query := none
         fragment := none }

/-- What `serde_json::from_value` makes of a text event. -/
def readText (v : Json) : Option AgentEvent :=
  if (v.get? "kind").bind Json.str? = some "text" then
    ((v.get? "text").bind Json.str?).map fun text => { event := .text text }
  else none

/-- A prompt in a session with one child at work. -/
def promptedChild : List (StoreOp × ℕ) :=
  [(.createSession "s" "p" "claude", 0), (.event "s" (Store.runningChild "a" (some "t")), 1)]

def textReport (text : String) : Report := .event { event := .text text }

def childReport (text : String) : Report := .child "t" { event := .text text }

/-- The agent and its child each cut a text inside the credential. -/
def splitReports : List (Report × ℕ) :=
  [(textReport "sk", 2), (textReport "-9", 3), (childReport "sk", 4), (childReport "-9", 5)]

/-- The tables after a run of reports in the session. -/
def afterReports (reports : List (Report × ℕ)) : Transcripts :=
  Runs.run (Runs.attempt (Transcripts.record readText (fun _ => none) keyedConfig "s"))
    { store := (Store.empty Store.oneProject).after promptedChild } reports

instance (p : List Char) (e : EventKind) : Decidable (e.Clean p) :=
  inferInstanceAs (Decidable (∀ text ∈ e.toJson.strings, ¬p <:+: text.toList))

instance (credential : String) (e : Event) : Decidable (Shows credential e) :=
  inferInstanceAs (Decidable (∃ text ∈ e.event.toJson.strings,
    credential.toList <:+: text.toList))

instance (fromValue : Json → Option AgentEvent) (config : LaunchConfig) (id : String)
    (p : List Char) (x : Transcripts × Watch) (r : Report × ℕ) :
    Decidable (Withheld fromValue config id p x r) := by
  unfold Withheld
  split <;> infer_instance

/-- A log without texts starts a run. -/
theorem Starts.of_plain {p : List Char} {id : String} {s : Store} (hp : p ≠ [])
    (hx : ∃ x, s.session id = .ok x)
    (hrows : ∀ row ∈ s.events, row.sessionId = id → row.event.Clean p)
    (htasks : ∀ row ∈ s.subagents, row.sessionId = id → ¬p <:+: row.task.id.toList)
    (hplain : ∀ row ∈ s.loggedRows id, row.event.asText = none) : Starts p id s where
  session := hx
  rows := hrows
  tasks := htasks
  runs block texts hblock htexts := by
    rcases block with _ | ⟨row, block⟩
    · obtain rfl : texts = [] := by simpa [TextRows, eq_comm] using htexts
      simpa using hp
    · obtain ⟨text, _, -, htext, -⟩ := List.map_eq_cons_iff.1 htexts.symm
      have := hplain row (hblock.subset List.mem_cons_self)
      simp [← htext] at this
  newest row hrow := hplain row (List.mem_of_getLast? hrow)

theorem promptedChild_starts :
    Starts keyed.credential.toList "s" ((Store.empty Store.oneProject).after promptedChild) :=
  .of_plain (by decide +kernel) ⟨_, rfl⟩ (by decide +kernel) (by decide +kernel) (by decide +kernel)

theorem keyed_apart : keyed.credential.toList.Disjoint marker := by
  have hall : keyed.credential.toList.all (fun c => !marker.contains c) = true := by decide +kernel
  intro c hc hm
  have hnot := List.all_eq_true.1 hall c hc
  simp [hm] at hnot

theorem readText_readsBack : ReadsBack readText keyedConfig := by
  intro e r h
  have hredacts := @LaunchConfig.redacts keyedConfig keyed rfl (by decide) keyed_apart
  unfold readText at h
  split at h
  · rename_i hkind
    have hword : keyedConfig.redact e.event.kind = "text" := Option.some.inj hkind
    obtain ⟨t, ht⟩ : ∃ t, e.event = .text t := by
      rw [← EventKind.kind_text, ← hword, hredacts.redact_word]
      rw [hword]
      decide
    obtain ⟨u, hu, rfl⟩ := Option.map_eq_some_iff.1 h
    rw [ht] at hu ⊢
    obtain rfl : keyedConfig.redact t = u := Option.some.inj hu
    have hmarked : keyedConfig.redact "text" = "text" := by
      rw [ht] at hword
      exact hword
    simp only [EventKind.toJson, EventKind.kind, EventKind.fields, Json.mapStrings,
      Json.mapFields, hmarked]
  · cases h

/-- A credential that a provider may have, cut in two by the texts of an agent and of its child:
both are shown joined. -/
theorem split_credential_shown :
    validateProvider keyedUrl keyed.metadata keyed.credential = .ok () ∧
      keyed.credential.toList.Disjoint marker ∧
      ((afterReports splitReports).store.history "s" none).toOption.any
        (fun page => page.events.any fun e => decide (Shows keyed.credential e)) = true ∧
      ((afterReports splitReports).subagentTranscript "s" "a").toOption.any
        (fun out => out.1.any fun e => decide (Shows keyed.credential e)) = true :=
  ⟨by decide +kernel, keyed_apart, by decide +kernel, by decide +kernel⟩

/-- Texts that are cut beside the credential, and one that has it whole. -/
def wholeReports : List (Report × ℕ) :=
  [(textReport "key sk-9 s", 2), (textReport "k-8", 3), (childReport "sk", 4), (childReport "-8", 5)]

theorem credential_withheld_whole :
    let t := afterReports wholeReports
    (∀ before page, t.store.history "s" before = .ok page →
      ∀ e ∈ page.events, ¬Shows keyed.credential e) ∧
    ∀ taskId out, t.subagentTranscript "s" taskId = .ok out →
      ∀ e ∈ out.1, ¬Shows keyed.credential e :=
  credential_withheld keyedUrl keyed (by decide +kernel) (by decide +kernel) keyed_apart
    (by decide +kernel) keyedConfig rfl readText readText_readsBack (fun _ => none) Store.oneProject
    promptedChild "s" promptedChild_starts wholeReports (by decide +kernel)

end LatteWork