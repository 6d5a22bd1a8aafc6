import LatteWork.Lib.KeyedMerge
import LatteWork.Proofs.HistoryPages
import LatteWork.Workbench.Activity

/-!
# The projection does not depend on how the log was loaded

Joining neighbouring texts under a newer number changes the projection in the keys of the
assistant's rows and in nothing else: no state lies between two texts that are joined, so a key is
behind the same states. Pages that were merged in any way are the log with some of its texts joined.
-/

namespace LatteWork

/-- Numbers behind the same states. -/
def Behind (stops : List ℕ) (k k' : ℕ) : Prop := ∀ stop ∈ stops, stop ≤ k ↔ stop ≤ k'

theorem Behind.trans {stops : List ℕ} {k k' k'' : ℕ} (h : Behind stops k k')
    (h' : Behind stops k' k'') : Behind stops k k'' := fun stop hs => (h stop hs).trans (h' stop hs)

/-- One list of events is another one with some of its neighbouring texts joined, each time under a
number behind the same states. -/
inductive Joined (stops : List ℕ) : List Event → List Event → Prop
  | nil : Joined stops [] []
  | cons (e : Event) {loaded log : List Event} : Joined stops loaded log →
      Joined stops (e :: loaded) (e :: log)
  | join {e f : Event} {t u : String} {loaded log : List Event} : e.event = .text t →
      f.event = .text u → Behind stops f.seq e.seq → Joined stops (f :: loaded) log →
      Joined stops ({ f with event := .text (t ++ u) } :: loaded) (e :: log)

variable {stops : List ℕ} {loaded log : List Event}

theorem Joined.append (h : Joined stops loaded log) {loaded' log' : List Event}
    (h' : Joined stops loaded' log') : Joined stops (loaded ++ loaded') (log ++ log') := by
  induction h with
  | nil => exact h'
  | cons e _ ih => exact .cons e ih
  | join he hf hbehind _ ih => exact .join he hf hbehind ih

theorem Joined.refl : ∀ log : List Event, Joined stops log log
  | [] => .nil
  | e :: log => .cons e (Joined.refl log)

/-- What passes over texts does not see that they are joined. -/
theorem Joined.filterMap_eq (h : Joined stops loaded log) {β : Type} {g : Event → Option β}
    (hg : ∀ e t, e.event = .text t → g e = none) : loaded.filterMap g = log.filterMap g := by
  induction h with
  | nil => rfl
  | cons e _ ih => rw [List.filterMap_cons, List.filterMap_cons, ih]
  | @join e f t u loaded log he hf _ _ ih =>
    rw [List.filterMap_cons, hg f u hf] at ih
    rw [List.filterMap_cons, List.filterMap_cons, hg _ (t ++ u) rfl, hg e t he]
    exact ih

theorem Joined.receipts_eq (h : Joined stops loaded log) :
    queuedInputReceipts loaded = queuedInputReceipts log :=
  h.filterMap_eq fun e t he => by rw [he]

theorem Joined.stops_eq (h : Joined stops loaded log) :
    (loaded.filterMap fun e => if e.event.terminal then some e.seq else none) =
      log.filterMap fun e => if e.event.terminal then some e.seq else none :=
  h.filterMap_eq fun e t he => by rw [he]; rfl

theorem Joined.maps_eq (h : Joined stops loaded log)
    (receipts : List ((String × String) × String × ℕ)) :
    TranscriptMaps.ofEvents receipts loaded = TranscriptMaps.ofEvents receipts log := by
  unfold TranscriptMaps.ofEvents
  rw [h.stops_eq]
  congr 2
  · exact h.filterMap_eq fun e t he => by rw [he]
  · exact h.filterMap_eq fun e t he => by rw [he]
  · exact h.filterMap_eq fun e t he => by rw [he]

/-- Items that differ in nothing but the key of an assistant's, behind the same states. -/
inductive Item.Like (stops : List ℕ) : Item → Item → Prop
  | same (i : Item) : Like stops i i
  | assistant {k k' : ℕ} (text : String) : Behind stops k k' →
      Like stops (.assistant k text) (.assistant k' text)

theorem Item.Like.trans {i j k : Item} (h : i.Like stops j) (h' : j.Like stops k) :
    i.Like stops k := by
  cases h with
  | same => exact h'
  | assistant text hb =>
    cases h' with
    | same => exact .assistant text hb
    | assistant _ hb' => exact .assistant text (hb.trans hb')

theorem Item.Like.key {i j : Item} (h : i.Like stops j) : Behind stops i.key j.key := by
  cases h with
  | same => exact fun _ _ => Iff.rfl
  | assistant _ hb => exact hb

theorem Item.Like.visible_eq {i j : Item} (h : i.Like stops j) : i.visible = j.visible := by
  cases h <;> rfl

namespace TranscriptScan

variable {m : TranscriptMaps} {scan scan' scan'' : TranscriptScan}

/-- Loops that are as far, with items that are alike. -/
structure Like (stops : List ℕ) (scan scan' : TranscriptScan) : Prop where
  items : List.Forall₂ (Item.Like stops) scan.items scan'.items
  renderedChanges : scan.renderedChanges = scan'.renderedChanges

theorem Like.refl (scan : TranscriptScan) : Like stops scan scan :=
  ⟨List.forall₂_same.2 fun i _ => .same i, rfl⟩

theorem Like.trans (h : Like stops scan scan') (h' : Like stops scan' scan'') :
    Like stops scan scan'' := by
  refine ⟨?_, h.renderedChanges.trans h'.renderedChanges⟩
  have htrans : ∀ {a b c : List Item}, List.Forall₂ (Item.Like stops) a b →
      List.Forall₂ (Item.Like stops) b c → List.Forall₂ (Item.Like stops) a c := by
    intro a b c hab
    induction hab generalizing c with
    | nil => exact fun h => h
    | cons hab _ ih =>
      intro hbc
      cases hbc with
      | cons hbc hrest => exact .cons (hab.trans hbc) (ih hrest)
  exact htrans h.items h'.items

theorem Like.push (h : Like stops scan scan') (item : Item) :
    Like stops (scan.push item) (scan'.push item) :=
  ⟨.cons (.same item) h.items, h.renderedChanges⟩

theorem Like.say (h : Like stops scan scan') (seq : ℕ) (text : String) :
    Like stops (scan.say seq text) (scan'.say seq text) := by
  obtain ⟨items, rendered⟩ := scan
  obtain ⟨items', rendered'⟩ := scan'
  obtain ⟨hitems, rfl⟩ := h
  cases hitems with
  | nil => exact .refl _
  | @cons i _ _ _ hitem hrest =>
    cases hitem with
    | same =>
      cases i with
      | assistant k said => exact ⟨.cons (.same _) hrest, rfl⟩
      | user => exact ⟨.cons (.same _) (.cons (.same _) hrest), rfl⟩
      | event => exact ⟨.cons (.same _) (.cons (.same _) hrest), rfl⟩
    | assistant said hb => exact ⟨.cons (.assistant _ hb) hrest, rfl⟩

theorem Like.step (h : Like stops scan scan') (e : Event) :
    Like stops (scan.step m e) (scan'.step m e) := by
  unfold TranscriptScan.step
  rw [h.renderedChanges]
  split
  · split_ifs
    · exact h
    · exact ⟨(h.push _).items, rfl⟩
  · exact h
  · exact h
  · exact h
  · split_ifs
    · exact h.push _
    · exact h
  · exact h.push _
  · exact h.say _ _
  · exact h.push _
  · exact h.push _
  · split_ifs
    · exact h.push _
    · exact h
  · exact h
  · exact h
  · exact h.push _
  · exact h.push _
  · exact h.push _

theorem Like.steps (h : Like stops scan scan') (events : List Event) :
    Like stops (events.foldl (TranscriptScan.step m) scan)
      (events.foldl (TranscriptScan.step m) scan') := by
  induction events generalizing scan scan' with
  | nil => exact h
  | cons e _ ih => exact ih (h.step e)

/-- Two texts in a row are said as one. -/
theorem step_join {e f : Event} {t u : String} (he : e.event = .text t) (hf : f.event = .text u)
    (hb : Behind stops f.seq e.seq) (scan : TranscriptScan) :
    Like stops (scan.step m { f with event := .text (t ++ u) }) ((scan.step m e).step m f) := by
  unfold TranscriptScan.step
  rw [he, hf]
  dsimp only
  obtain ⟨items, rendered⟩ := scan
  rcases items with _ | ⟨⟨⟩ | ⟨k, said⟩ | ⟨⟩, rest⟩
  · exact ⟨.cons (.assistant _ hb) .nil, rfl⟩
  · exact ⟨.cons (.assistant _ hb) (Like.refl ⟨_, rendered⟩).items, rfl⟩
  · simp only [TranscriptScan.say, String.append_assoc]
    exact .refl _
  · exact ⟨.cons (.assistant _ hb) (Like.refl ⟨_, rendered⟩).items, rfl⟩

/-- Going through the joined events. -/
theorem steps_joined (h : Joined stops loaded log) (scan : TranscriptScan) :
    Like stops (loaded.foldl (TranscriptScan.step m) scan)
      (log.foldl (TranscriptScan.step m) scan) := by
  induction h generalizing scan with
  | nil => exact .refl _
  | cons e _ ih => exact ih (scan.step m e)
  | @join e f t u loaded log he hf hb _ ih =>
    rw [List.foldl_cons, List.foldl_cons]
    refine ((step_join he hf hb scan).steps loaded).trans ?_
    exact ih (scan.step m e)

end TranscriptScan

theorem forall₂_filter {α : Type} {R : α → α → Prop} {p : α → Bool}
    (hp : ∀ a b, R a b → p a = p b) {l l' : List α} (h : List.Forall₂ R l l') :
    List.Forall₂ R (l.filter p) (l'.filter p) := by
  induction h with
  | nil => exact .nil
  | @cons a b _ _ hab _ ih =>
    rw [List.filter_cons, List.filter_cons, hp a b hab]
    split
    · exact .cons hab ih
    · exact ih

/-- The transcripts are alike. -/
theorem Joined.transcript_like (h : Joined stops loaded log)
    (receipts : List ((String × String) × String × ℕ)) :
    List.Forall₂ (Item.Like stops) (transcript loaded receipts) (transcript log receipts) := by
  unfold transcript
  rw [h.maps_eq receipts]
  exact forall₂_filter (fun _ _ h => h.visible_eq)
    (List.rel_reverse (TranscriptScan.steps_joined h {}).items)

/-- Rows that differ in nothing but the key of an assistant's. -/
inductive ActivityRow.Like (stops : List ℕ) : ActivityRow → ActivityRow → Prop
  | same (row : ActivityRow) : Like stops row row
  | item {i j : Item} (tool : Option ℕ) : i.Like stops j → Like stops (.item i tool) (.item j tool)

namespace ActivityScan

/-- Loops that are as far, with rows that are alike. -/
structure Like (stops : List ℕ) (scan scan' : ActivityScan) : Prop where
  rows : List.Forall₂ (ActivityRow.Like stops) scan.rows scan'.rows
  tools : scan.tools = scan'.tools
  attached : scan.attached = scan'.attached
  pending : scan.pending = scan'.pending
  unfinished : scan.unfinished = scan'.unfinished
  terminal : scan.terminal = scan'.terminal
  subset : scan'.terminal ⊆ stops

variable {scan scan' : ActivityScan}

theorem Like.push (h : Like stops scan scan') {row row' : ActivityRow} (hrow : row.Like stops row') :
    Like stops (scan.push row) (scan'.push row') :=
  ⟨.cons hrow h.rows, h.tools, h.attached, h.pending, h.unfinished, h.terminal, h.subset⟩

theorem Like.setTool (h : Like stops scan scan') (index : ℕ) (f : ToolActivity → ToolActivity) :
    Like stops (scan.setTool index f) (scan'.setTool index f) :=
  ⟨h.rows, by rw [ActivityScan.setTool, h.tools]; rfl, h.attached, h.pending, h.unfinished, h.terminal, h.subset⟩

theorem Like.setTools (f : ToolActivity → ToolActivity) (indices : List ℕ)
    (h : Like stops scan scan') :
    Like stops (indices.foldl (fun scan index => scan.setTool index f) scan)
      (indices.foldl (fun scan index => scan.setTool index f) scan') := by
  induction indices generalizing scan scan' with
  | nil => exact h
  | cons index _ ih => exact ih (h.setTool index f)

theorem Like.pushTool (h : Like stops scan scan') (tool : ToolActivity) :
    Like stops (scan.pushTool tool) (scan'.pushTool tool) := by
  unfold ActivityScan.pushTool
  rw [h.tools]
  exact ⟨(h.push (.same _)).rows, rfl, h.attached, h.pending, h.unfinished, h.terminal, h.subset⟩

theorem Like.finish (h : Like stops scan scan') : Like stops scan.finish scan'.finish := by
  unfold ActivityScan.finish
  rw [h.unfinished]
  have := h.setTools (fun tool =>
    if tool.status = .pending then { tool with status := .unconfirmed } else tool) scan'.unfinished
  exact ⟨this.rows, this.tools, this.attached, rfl, rfl, this.terminal, this.subset⟩

theorem dropWhile_behind {k k' : ℕ} (h : Behind stops k k') {l : List ℕ} (hl : l ⊆ stops) :
    l.dropWhile (· ≤ k) = l.dropWhile (· ≤ k') := by
  induction l with
  | nil => rfl
  | cons a l ih =>
    have ha := h a (hl List.mem_cons_self)
    simp only [List.dropWhile_cons, ha]
    rw [ih fun x hx => hl (List.mem_cons_of_mem _ hx)]

theorem Like.pass (h : Like stops scan scan') {k k' : ℕ} (hk : Behind stops k k') :
    Like stops (scan.pass k) (scan'.pass k') := by
  have hhead : scan.terminal.head?.any (· ≤ k) = scan'.terminal.head?.any (· ≤ k') := by
    rw [h.terminal]
    rcases hterm : scan'.terminal with _ | ⟨a, l⟩
    · rfl
    · have ha := hk a (h.subset (by simp [hterm]))
      simp [ha]
  unfold ActivityScan.pass
  rw [hhead]
  split_ifs
  · have hfin := h.finish
    refine ⟨hfin.rows, hfin.tools, hfin.attached, hfin.pending, hfin.unfinished, ?_, ?_⟩
    · rw [h.terminal]
      exact dropWhile_behind hk h.subset
    · exact fun x hx => h.subset ((List.dropWhile_sublist _).subset hx)
  · exact h

theorem Like.start (h : Like stops scan scan') (key : ℕ) (id name : String) (input : Json) :
    Like stops (scan.start key id name input) (scan'.start key id name input) := by
  have hpush := h.pushTool { key, name, input := some input, status := .pending }
  unfold ActivityScan.start
  dsimp only
  refine ⟨hpush.rows, hpush.tools, hpush.attached, ?_, ?_, hpush.terminal, hpush.subset⟩
  · rw [hpush.pending, h.tools]
  · rw [hpush.unfinished, h.tools]

theorem Like.result (h : Like stops scan scan') (key : ℕ) (id : String) (content : Json)
    (isError : Bool) :
    Like stops (scan.result key id content isError) (scan'.result key id content isError) := by
  unfold ActivityScan.result
  dsimp only
  rw [h.pending]
  have himages : ∀ {scan scan' : ActivityScan}, Like stops scan scan' →
      Like stops (if (toolOutput content).2.isEmpty then scan
          else scan.push (.toolImages key (toolOutput content).2))
        (if (toolOutput content).2.isEmpty then scan'
          else scan'.push (.toolImages key (toolOutput content).2)) := by
    intro scan scan' h
    split_ifs
    · exact h
    · exact h.push (.same _)
  refine himages ?_
  split
  · rename_i index _
    have hset := h.setTool index fun tool =>
      { tool with
        output := some (toolOutput content).1
        status := if tool.status ≠ .denied then (if isError then .failed else .completed)
          else tool.status }
    exact ⟨hset.rows, hset.tools, hset.attached, rfl, by rw [h.unfinished], hset.terminal,
      hset.subset⟩
  · exact h.pushTool _

theorem Like.asked_eq (h : Like stops scan scan') (value : EventKind) :
    scan.asked value = scan'.asked value := by
  unfold ActivityScan.asked
  rw [h.pending]

theorem Like.take (h : Like stops scan scan') {i j : Item} (hij : i.Like stops j) :
    Like stops (scan.take i) (scan'.take j) := by
  cases hij with
  | assistant text hb => exact h.push (.item none (.assistant text hb))
  | same =>
    cases i with
    | user key text atMs handoff hidden =>
      cases handoff
      · exact h.finish.push (.same _)
      · exact h.push (.same _)
    | assistant key text => exact h.push (.same _)
    | event key value resolved answers decision =>
      unfold ActivityScan.take
      dsimp only
      split
      · exact h.start _ _ _ _
      · exact h.result _ _ _ _
      · rw [h.asked_eq]
        split
        · have hpush := h.push (.same (.item (.event key value resolved answers decision)
            (scan'.asked value)))
          rename_i index hasked
          rw [hasked] at hpush
          have hattach : Like stops { scan.push _ with attached := index :: scan.attached }
              { scan'.push _ with attached := index :: scan'.attached } :=
            ⟨hpush.rows, hpush.tools, by rw [h.attached], hpush.pending, hpush.unfinished,
              hpush.terminal, hpush.subset⟩
          exact hattach.setTool _ _
        · exact h.push (.same _)

theorem Like.step (h : Like stops scan scan') {i j : Item} (hij : i.Like stops j) :
    Like stops (scan.step i) (scan'.step j) :=
  (h.pass hij.key).take hij

theorem Like.steps {items items' : List Item} (hitems : List.Forall₂ (Item.Like stops) items items')
    (h : Like stops scan scan') :
    Like stops (items.foldl ActivityScan.step scan) (items'.foldl ActivityScan.step scan') := by
  induction hitems generalizing scan scan' with
  | nil => exact h
  | cons hij _ ih => exact ih (h.step hij)

end ActivityScan

/-- An item without the key of an assistant's. -/
def ActivityItem.withoutKey : ActivityItem → ActivityItem
  | .item (.assistant _ text) approvalTool => .item (.assistant 0 text) approvalTool
  | shown => shown

/-- Groups that are the same but for the keys of the assistant's rows. -/
abbrev SameRows (rows rows' : List ActivityItem) : Prop :=
  List.Forall₂ (fun a b => ActivityItem.withoutKey a = b.withoutKey) rows rows'

theorem sameRows_iff {rows rows' : List ActivityItem} :
    SameRows rows rows' ↔ rows.map ActivityItem.withoutKey = rows'.map ActivityItem.withoutKey := by
  rw [← List.forall₂_eq_eq_eq, List.forall₂_map_left_iff, List.forall₂_map_right_iff]

theorem withoutKey_tools {item : ActivityItem} {key : ℕ} {tools : List ToolActivity} :
    item.withoutKey = .tools key tools ↔ item = .tools key tools := by
  unfold ActivityItem.withoutKey
  split <;> simp

theorem withoutKey_tool {item : ActivityItem} {tool : ToolActivity} :
    item.withoutKey = .tool tool ↔ item = .tool tool := by
  unfold ActivityItem.withoutKey
  split <;> simp

theorem groupRow_sameRows {tools : List ToolActivity} {attached : List ℕ}
    {rows rows' : List ActivityItem} (h : SameRows rows rows') {row row' : ActivityRow}
    (hrow : row.Like stops row') :
    SameRows (groupRow tools attached rows row) (groupRow tools attached rows' row') := by
  cases hrow with
  | item tool hij =>
    refine .cons ?_ h
    cases hij <;> rfl
  | same =>
    cases row with
    | item item tool => exact .cons rfl h
    | toolImages key images => exact .cons rfl h
    | tool index =>
      unfold groupRow
      dsimp only
      split_ifs
      · exact h
      split
      · exact h
      · split_ifs with hgroup
        · cases h with
          | nil => exact .cons rfl .nil
          | @cons last last' rest rest' hlast hrest =>
            cases last with
            | tools key group =>
              obtain rfl := withoutKey_tools.1 hlast.symm
              exact .cons rfl hrest
            | tool last =>
              obtain rfl := withoutKey_tool.1 hlast.symm
              dsimp only
              split_ifs
              · exact .cons rfl hrest
              · exact .cons rfl (.cons rfl hrest)
            | item | toolImages =>
              cases last' with
              | tools => cases withoutKey_tools.1 hlast
              | tool => cases withoutKey_tool.1 hlast
              | item | toolImages => exact .cons rfl (.cons hlast hrest)
        · exact .cons rfl h

/-- The projections of a log and of the log with texts joined differ in nothing but the keys of the
assistant's rows. -/
theorem Joined.activity_sameRows
    (h : Joined (log.filterMap fun e => if e.event.terminal then some e.seq else none) loaded log) :
    (activityTranscript loaded).map ActivityItem.withoutKey =
      (activityTranscript log).map ActivityItem.withoutKey := by
  set stops := log.filterMap fun e => if e.event.terminal then some e.seq else none with hstops
  have hscan : ActivityScan.Like stops (activityScan loaded (queuedInputReceipts loaded))
      (activityScan log (queuedInputReceipts log)) := by
    have hstart : ActivityScan.Like stops
        { terminal := loaded.filterMap fun e => if e.event.terminal then some e.seq else none }
        { terminal := stops } :=
      ⟨.nil, rfl, rfl, rfl, rfl, h.stops_eq, List.Subset.refl _⟩
    have hsteps := hstart.steps (h.transcript_like (queuedInputReceipts log))
    unfold activityScan
    rw [h.receipts_eq]
    dsimp only
    rw [hsteps.terminal]
    split_ifs
    · exact hsteps.finish
    · exact hsteps
  rw [← sameRows_iff]
  unfold activityTranscript
  dsimp only
  rw [hscan.tools, hscan.attached]
  refine List.rel_reverse ?_
  have hfold : ∀ {rows rows' : List ActivityRow} {groups groups' : List ActivityItem},
      List.Forall₂ (ActivityRow.Like stops) rows rows' → SameRows groups groups' →
        SameRows (rows.foldl (groupRow (activityScan log (queuedInputReceipts log)).tools
            (activityScan log (queuedInputReceipts log)).attached) groups)
          (rows'.foldl (groupRow (activityScan log (queuedInputReceipts log)).tools
            (activityScan log (queuedInputReceipts log)).attached) groups') := by
    intro rows rows' groups groups' hrows
    induction hrows generalizing groups groups' with
    | nil => exact fun hg => hg
    | cons hrow _ ih => exact fun hg => ih (groupRow_sameRows hg hrow)
  exact hfold (List.rel_reverse hscan.rows) .nil

/-- A text in front of joined events has the number of a row, behind which everything else comes. -/
theorem coalesce_head : ∀ {log : List Event}, log.Pairwise (·.seq < ·.seq) → ∀ {f : Event}
    {rest : List Event}, coalesce log = f :: rest → f.event.asText.isSome →
      (∃ r ∈ log, r.seq = f.seq) ∧ ∀ r ∈ log, r.event.asText = none → f.seq < r.seq
  | [], _, _, _, h, _ => by simp [coalesce] at h
  | e :: log, hlog, f, rest, h, hf => by
    obtain ⟨he, hlog⟩ := List.pairwise_cons.1 hlog
    have hfront : f = e → (∃ r ∈ e :: log, r.seq = f.seq) ∧
        ∀ r ∈ e :: log, r.event.asText = none → f.seq < r.seq := by
      rintro rfl
      refine ⟨⟨f, List.mem_cons_self, rfl⟩, fun r hr hnone => ?_⟩
      rcases List.mem_cons.1 hr with rfl | hr
      · simp [hnone] at hf
      · exact he r hr
    rw [coalesce] at h
    rcases hc : coalesce log with _ | ⟨g, more⟩
    · rw [hc] at h
      exact hfront (List.cons.inj h).1.symm
    rw [hc] at h
    unfold joinText at h
    rcases het : e.event.asText with _ | t
    · simp only [het] at h
      exact hfront (List.cons.inj h).1.symm
    rcases hgt : g.event.asText with _ | u
    · simp only [het, hgt] at h
      exact hfront (List.cons.inj h).1.symm
    · simp only [het, hgt] at h
      obtain ⟨⟨r, hr, hseq⟩, hbehind⟩ := coalesce_head hlog hc (by simp [hgt])
      obtain ⟨rfl, -⟩ := List.cons.inj h
      refine ⟨⟨r, List.mem_cons_of_mem _ hr, hseq⟩, fun r' hr' hnone => ?_⟩
      rcases List.mem_cons.1 hr' with rfl | hr'
      · simp [het] at hnone
      · exact hbehind r' hr' hnone

theorem not_terminal_of_text {e : Event} (h : e.event.asText.isSome) : e.event.terminal = false := by
  obtain ⟨t, ht⟩ := Option.isSome_iff_exists.1 h
  rw [EventKind.asText_eq_some.1 ht]
  rfl

/-- A stretch with its texts joined, when no state lies between two that are joined. -/
theorem coalesce_joined_of : ∀ {stretch : List Event},
    (∀ front e rest f more, stretch = front ++ e :: rest → e.event.asText ≠ none →
      coalesce rest = f :: more → f.event.asText ≠ none → Behind stops f.seq e.seq) →
    Joined stops (coalesce stretch) stretch
  | [], _ => .nil
  | e :: rest, h => by
    have ih := @coalesce_joined_of rest fun front e' rest' f more hr =>
      h (e :: front) e' rest' f more (by rw [hr]; rfl)
    rw [coalesce]
    rcases hc : coalesce rest with _ | ⟨f, more⟩
    · rw [hc] at ih
      exact .cons e ih
    rw [hc] at ih
    unfold joinText
    rcases het : e.event.asText with _ | t
    · exact .cons e ih
    dsimp only
    rcases hft : f.event.asText with _ | u
    · exact .cons e ih
    exact .join (EventKind.asText_eq_some.1 het) (EventKind.asText_eq_some.1 hft)
      (h [] e rest f more rfl (by simp [het]) hc (by simp [hft])) ih

/-- A stretch of a log with its texts joined: no state lies between two of them. -/
theorem coalesce_joined {log : List Event} (hlog : log.Pairwise (·.seq < ·.seq))
    {stretch before after : List Event} (h : log = before ++ stretch ++ after) :
    Joined (log.filterMap fun e => if e.event.terminal then some e.seq else none)
      (coalesce stretch) stretch := by
  refine coalesce_joined_of fun front e rest f more hstretch het hc hft => ?_
  have h : log = (before ++ front) ++ (e :: rest) ++ after := by rw [h, hstretch]; simp
  rw [h, List.pairwise_append, List.pairwise_append, List.pairwise_cons] at hlog
  obtain ⟨⟨hbefore, ⟨he, hrest⟩, hfront⟩, hafter, hback⟩ := hlog
  obtain ⟨⟨r, hr, hseq⟩, hbehind⟩ := coalesce_head hrest hc (Option.isSome_iff_ne_none.2 hft)
  intro stop hstop
  obtain ⟨w, hw, hws⟩ := List.mem_filterMap.1 hstop
  have hterm : w.event.terminal = true := by
    by_contra hn
    simp [hn] at hws
  obtain rfl : w.seq = stop := by simpa [hterm] using hws
  have htext : w.event.asText = none := by
    by_contra hsome
    rw [not_terminal_of_text (Option.isSome_iff_ne_none.2 hsome)] at hterm
    cases hterm
  have her := he r hr
  rw [h, List.mem_append, List.mem_append, List.mem_cons] at hw
  rcases hw with (hw | rfl | hw) | hw
  · have := hfront w hw e List.mem_cons_self
    omega
  · exact absurd htext het
  · have := he w hw
    have := hbehind w hw htext
    omega
  · have := hback e (by simp) w hw
    have := hback r (by simp [hr]) w hw
    omega

theorem Joined.seqs_sublist (h : Joined stops loaded log) :
    (loaded.map (·.seq)).Sublist (log.map (·.seq)) := by
  induction h with
  | nil => exact .slnil
  | cons e _ ih => exact ih.cons_cons _
  | join _ _ _ _ ih => exact ih.cons _

/-- Pages that cut a log up, texts joined within each. -/
theorem pages_joined {log : List Event} (hlog : log.Pairwise (·.seq < ·.seq)) :
    ∀ {stretches : List (List Event)} {before after : List Event},
      log = before ++ stretches.flatten ++ after →
        Joined (log.filterMap fun e => if e.event.terminal then some e.seq else none)
          (stretches.map coalesce).flatten stretches.flatten
  | [], _, _, _ => .nil
  | stretch :: rest, before, after, h => by
    rw [List.map_cons, List.flatten_cons, List.flatten_cons]
    refine (@coalesce_joined log hlog stretch before (rest.flatten ++ after) ?_).append
      (@pages_joined log hlog rest (before ++ stretch) after ?_)
    · rw [h]
      simp
    · rw [h]
      simp

open KeyedMerge

/-- Loading pages with `appendEvents`, in the order and as often as they come. -/
def loadedBy : Merging Event → List Event
  | .nothing => []
  | .part page => page
  | .merge existing incoming => appendEvents (loadedBy existing) (loadedBy incoming)

theorem loadedBy_eq : ∀ m : Merging Event, loadedBy m = m.entries Event.seq
  | .nothing => rfl
  | .part _ => rfl
  | .merge a b => by
    rw [loadedBy, loadedBy_eq a, loadedBy_eq b]
    rfl

/-- What the pages of a log give, however they are merged: the log with texts joined. -/
theorem loadedBy_joined (hlog : log.Pairwise (·.seq < ·.seq)) {history poll : List (List Event)}
    (hcut : history.flatten ++ poll.flatten = log) (m : Merging Event)
    (hparts : ∀ p, p ∈ m.parts ↔ p ∈ history.map coalesce ++ poll) :
    Joined (log.filterMap fun e => if e.event.terminal then some e.seq else none) (loadedBy m)
      log := by
  have hwhole : Joined (log.filterMap fun e => if e.event.terminal then some e.seq else none)
      (history.map coalesce ++ poll).flatten log := by
    have hjoined := (@pages_joined log hlog history [] poll.flatten hcut.symm).append
      (.refl poll.flatten)
    rwa [hcut, ← List.flatten_append] at hjoined
  have hsorted : (history.map coalesce ++ poll).flatten.Pairwise (·.seq < ·.seq) :=
    List.pairwise_map.1 ((List.pairwise_map.2 hlog).sublist hwhole.seqs_sublist)
  rw [loadedBy_eq, m.entries_eq hsorted]
  · exact hwhole
  · exact fun p hp => List.sublist_flatten_of_mem ((hparts p).1 hp)
  · intro e he
    obtain ⟨p, hp, he⟩ := List.mem_flatten.1 he
    exact ⟨p, (hparts p).2 hp, he⟩

/-- The projection does not depend on how the log was loaded. The log is cut up into pages anywhere;
the server joins the texts of the pages read backwards; the pages are merged in any order and as
often as they come. -/
theorem projection_independent (log : List Event) (hlog : log.Pairwise (·.seq < ·.seq))
    (history poll : List (List Event)) (hcut : history.flatten ++ poll.flatten = log)
    (m : Merging Event) (hparts : ∀ p, p ∈ m.parts ↔ p ∈ history.map coalesce ++ poll) :
    (activityTranscript (loadedBy m)).map ActivityItem.withoutKey =
      (activityTranscript log).map ActivityItem.withoutKey :=
  (loadedBy_joined hlog hcut m hparts).activity_sameRows

/-- A log with an answer in four pieces around a call. -/
def pieces : List Event :=
  [⟨1, "s", 0, .user "q" "r"⟩, ⟨2, "s", 0, .text "an"⟩, ⟨3, "s", 0, .text "sw"⟩,
    ⟨4, "s", 0, .text "er"⟩, ⟨5, "s", 0, .tool "c" "Read" .null⟩,
    ⟨6, "s", 0, .state .completed none⟩]

/-- The pages of `pieces`: two read backwards, which split the answer, and one of the poll. -/
def piecesHistory : List (List Event) := [pieces.take 2, (pieces.take 4).drop 2]

/-- The newest first, one of them twice. -/
def piecesMerging : Merging Event :=
  .merge (.merge (.part (pieces.drop 4)) (.part (coalesce ((pieces.take 4).drop 2))))
    (.merge (.part (coalesce (pieces.take 2))) (.part (pieces.drop 4)))

theorem projection_independent_pieces :
    (activityTranscript (loadedBy piecesMerging)).map ActivityItem.withoutKey =
      (activityTranscript pieces).map ActivityItem.withoutKey :=
  projection_independent pieces (by decide +kernel) piecesHistory [pieces.drop 4] rfl piecesMerging
    fun p => by
      simp only [piecesMerging, piecesHistory, Merging.parts, List.map_cons, List.map_nil,
        List.mem_append, List.mem_cons, List.not_mem_nil, or_false]
      tauto

/-- The pages of `history`, from the newest to the oldest, are such pages. -/
theorem Store.history_projection (s : Store) (id : String) (x : Session) (hx : s.session id = .ok x)
    (hs : s.Ordered) : ∃ pages : List HistoryPage,
      (∀ fuel, (s.sessionLog id).length < fuel →
        Paging.follow (fun c => (s.history id c).toOption) HistoryPage.before fuel none =
          some pages) ∧
      ∀ m : Merging Event, (∀ p, p ∈ m.parts ↔ p ∈ pages.map (·.events)) →
        (activityTranscript (loadedBy m)).map ActivityItem.withoutKey =
          (activityTranscript ((s.sessionLog id).map (EventRow.shown x.agent id))).map
            ActivityItem.withoutKey := by
  obtain ⟨pages, stretches, hfollow, hshows, hflat, -⟩ := s.history_pages id x hx hs
  refine ⟨pages, hfollow, fun m hparts => ?_⟩
  have hevents : pages.map (·.events) =
      (stretches.map (List.map (EventRow.shown x.agent id))).map coalesce := by
    clear hfollow hflat hparts
    induction hshows with
    | nil => rfl
    | cons hpage _ ih => rw [List.map_cons, ih, hpage.1, List.map_cons, List.map_cons]
  refine projection_independent _ ?_ (stretches.map (List.map (EventRow.shown x.agent id))) [] ?_ m ?_
  · exact List.pairwise_map.2 (sessionLog_ordered hs id)
  · rw [← List.map_flatten, hflat, sessionLog_eq hs, List.flatten_nil, List.append_nil]
  · rw [List.append_nil, ← hevents]
    exact hparts

theorem Store.history_projection_answered : ∃ pages : List HistoryPage,
    (∀ fuel, (answered.sessionLog "s").length < fuel →
      Paging.follow (fun c => (answered.history "s" c).toOption) HistoryPage.before fuel none =
        some pages) ∧
    ∀ m : Merging Event, (∀ p, p ∈ m.parts ↔ p ∈ pages.map (·.events)) →
      (activityTranscript (loadedBy m)).map ActivityItem.withoutKey =
        (activityTranscript ((answered.sessionLog "s").map (EventRow.shown "claude" "s"))).map
          ActivityItem.withoutKey :=
  history_projection answered "s" answeredSession (session_eq_ok.2 rfl) (by simp [Ordered, answered])

end LatteWork
