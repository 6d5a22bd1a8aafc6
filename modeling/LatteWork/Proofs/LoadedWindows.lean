import LatteWork.Proofs.PageEnds
import LatteWork.Proofs.PageSizes
import LatteWork.Proofs.Projection
import LatteWork.Workbench.Loading

/-!
# Windows of a log

A window is a stretch of a log with some of its texts joined. What waits and what is in the cache
are described by windows: `Conversations.Sound` says how, and `Conversations.orderly` which steps
keep it.
-/

namespace LatteWork

section Windows

variable {log older rows stretch events : List Event}

theorem Joined.last_eq {stops : List ℕ} (h : Joined stops events rows) :
    (events.map (·.seq)).getLast? = (rows.map (·.seq)).getLast? := by
  induction h with
  | nil => rfl
  | cons e _ ih => rw [List.map_cons, List.map_cons, List.getLast?_cons, List.getLast?_cons, ih]
  | join _ _ _ _ ih =>
    rw [List.map_cons, List.getLast?_cons] at ih
    rw [List.map_cons, List.map_cons, List.getLast?_cons, List.getLast?_cons, ← ih, Option.getD_some]

theorem Joined.newest_eq {stops : List ℕ} (h : Joined stops events rows) :
    newest events = newest rows := by
  unfold newest
  rw [← List.getLast?_map, ← List.getLast?_map, h.last_eq]

theorem Joined.sorted {stops : List ℕ} (h : Joined stops events rows)
    (hrows : rows.Pairwise (·.seq < ·.seq)) : events.Pairwise (·.seq < ·.seq) :=
  List.pairwise_map.1 ((List.pairwise_map.2 hrows).sublist h.seqs_sublist)

/-- What comes behind is appended. -/
theorem appendEvents_eq (h : (events ++ stretch).Pairwise (·.seq < ·.seq)) :
    appendEvents events stretch = events ++ stretch := by
  have hnew : (stretch.filter fun e => e.seq ∉ events.map (·.seq)) = stretch := by
    refine List.filter_eq_self.2 fun e he => decide_eq_true fun hmem => ?_
    obtain ⟨f, hf, hseq⟩ := List.mem_map.1 hmem
    have := (List.pairwise_append.1 h).2.2 f hf e he
    omega
  rw [appendEvents, hnew]
  exact List.Pairwise.insertionSort_eq (h.imp fun hlt => Nat.le_of_lt hlt)

/-- A part of a log is loaded, with some of its texts joined; `older` is what is before it. -/
structure Loads (log older rows events : List Event) : Prop where
  part : older ++ rows <+: log
  joined : Joined [] events rows
  start : rows = [] → older = []

/-- The cursor of what is before a part of a log. -/
def beforeOf (older rows : List Event) : Option ℕ :=
  if older.isEmpty then none else rows.head?.map (·.seq)

/-- A page of `history` shows a stretch of a log. -/
structure PageOf (r : HistoryPage) (older stretch : List Event) : Prop where
  events : r.events = coalesce stretch
  hasMore : r.hasMore = !older.isEmpty
  before : r.before = beforeOf older stretch

theorem historyPage_of (log : List Event) (before : Option ℕ) (n : ℕ) (needsEarlier : Bool) :
    ∃ older stretch, older ++ stretch = Paging.below Event.seq log before ∧
      PageOf (historyPage log before n needsEarlier) older stretch :=
  ⟨_, _, List.take_append_drop _ _, rfl, rfl, rfl⟩

theorem newest_append (h : rows = [] → older = []) : newest (older ++ rows) = newest rows := by
  unfold newest
  rw [List.getLast?_append]
  rcases rows with _ | ⟨e, rows⟩
  · rw [h rfl]
    rfl
  · rw [List.getLast?_cons]
    rfl

theorem newest_append_of_ne (h : rows ≠ []) : newest (older ++ rows) = newest rows :=
  newest_append fun hnil => absurd hnil h

/-- The cursor behind a front of a log, and rows that came behind it. -/
theorem cursor_append (front events : List Event) :
    (if events.isEmpty then newest front else newest events) = newest (front ++ events) := by
  rcases events with _ | ⟨e, events⟩
  · rw [List.append_nil]
    rfl
  · exact (newest_append_of_ne (by simp)).symm

theorem Loads.newest_eq (h : Loads log older rows events) : newest (older ++ rows) = newest events := by
  rw [newest_append h.start, h.joined.newest_eq]

theorem Loads.sorted (hlog : log.Pairwise (·.seq < ·.seq)) (h : Loads log older rows events) :
    (older ++ rows).Pairwise (·.seq < ·.seq) := hlog.sublist h.part.sublist

/-- A page of what is before makes a window longer. -/
theorem Joined.extend (hlog : log.Pairwise (·.seq < ·.seq)) (h : Joined [] events rows)
    (hpart : older ++ stretch ++ rows <+: log) :
    Joined [] (appendEvents (coalesce stretch) events) (stretch ++ rows) := by
  have hjoined := (coalesce_joined_of fun _ _ _ _ _ _ _ _ _ => by simp [Behind] : Joined [] (coalesce stretch) stretch).append h
  have hsorted : (stretch ++ rows).Pairwise (·.seq < ·.seq) := by
    refine hlog.sublist (List.Sublist.trans ?_ hpart.sublist)
    rw [List.append_assoc]
    exact List.sublist_append_right _ _
  rwa [appendEvents_eq (hjoined.sorted hsorted)]

/-- What is above the newest row of a front of a log is behind that front. -/
theorem above_front (hlog : log.Pairwise (·.seq < ·.seq)) (hpos : ∀ e ∈ log, 0 < e.seq)
    {front : List Event} (hfront : front <+: log) :
    front ++ Paging.above Event.seq log (newest front) = log := by
  obtain ⟨rest, rfl⟩ := hfront
  rcases List.eq_nil_or_concat front with rfl | ⟨init, last, rfl⟩
  · refine List.filter_eq_self.2 fun e he => ?_
    exact decide_eq_true (hpos e he)
  · rw [List.concat_eq_append] at hlog ⊢
    have hnewest : newest (init ++ [last]) = last.seq := by simp [newest]
    rw [hnewest, Paging.above, List.filter_append, List.filter_eq_nil_iff.2, List.filter_eq_self.2,
      List.nil_append]
    · intro e he
      have := (List.pairwise_append.1 hlog).2.2 last (by simp) e he
      simpa using this
    · intro e he
      rcases List.mem_append.1 he with he | he
      · have := (List.pairwise_append.1 (List.pairwise_append.1 hlog).1).2.2 e he last (by simp)
        simp only [decide_eq_true_eq, not_lt]
        omega
      · obtain rfl := List.mem_singleton.1 he
        simp

end Windows

section Host

variable {s : Store} {x : Session} {id : String}

theorem below_shown (log : List EventRow) (agent : String) (before : Option ℕ) :
    Paging.below Event.seq (log.map (EventRow.shown agent id)) before =
      (Paging.below EventRow.seq log before).map (EventRow.shown agent id) := by
  cases before with
  | none => rfl
  | some c => exact List.filter_map

/-- The host's pages are such pages. -/
theorem Store.history_page (hx : s.session id = .ok x) (before : Option ℕ) :
    ∃ n needsEarlier, s.history id before =
      .ok (historyPage ((s.sessionLog id).map (EventRow.shown x.agent id)) before n needsEarlier) := by
  obtain ⟨page, stretch, rest, hok, hrun, hevents, hmore, hbefore, -⟩ := Store.history_run hx before
  obtain ⟨hsplit, -⟩ := Paging.takeRun_spec (Paging.below EventRow.seq (s.sessionLog id) before).reverse
    [] (@Paging.Fitting.nil _ (historyRoom x.agent id))
  rw [hrun, List.nil_append, ← List.reverse_append, List.reverse_inj] at hsplit
  refine ⟨stretch.length, page.needsEarlier, hok.trans (congrArg _ ?_)⟩
  have hrows : ((rest ++ stretch).map (EventRow.shown x.agent id)).length - stretch.length =
      (rest.map (EventRow.shown x.agent id)).length := by simp
  rw [historyPage, below_shown, ← hsplit, hrows, List.map_append, List.take_left', List.drop_left',
    List.isEmpty_map, List.head?_map, Option.map_map, ← hevents, ← hmore]
  · change page = { page with before := if rest.isEmpty then none else stretch.head?.map (·.seq) }
    rw [← hbefore]
  all_goals rfl

theorem Store.pollEvents_page (hx : s.session id = .ok x) (after : ℕ) :
    ∃ n events more, s.pollEvents id after = .ok (events, more) ∧
      pollPage ((s.sessionLog id).map (EventRow.shown x.agent id)) after n = .events events more := by
  obtain ⟨run, rest, hsplit, hok, -⟩ := Store.events_page hx after
  refine ⟨run.length, _, _, hok, ?_⟩
  have hshown : Paging.above Event.seq ((s.sessionLog id).map (EventRow.shown x.agent id)) after =
      (run ++ rest).map (EventRow.shown x.agent id) := by
    rw [← hsplit]
    exact List.filter_map
  rw [pollPage, hshown]
  cases rest <;> simp

/-- Whatever page is asked for, the answer is a page of the session's log as it is shown. -/
theorem Store.pages_served (s : Store) (id : String) (x : Session) (hx : s.session id = .ok x) :
    let log := (s.sessionLog id).map (EventRow.shown x.agent id)
    (∀ before, ∃ n needsEarlier, s.history id before = .ok (historyPage log before n needsEarlier)) ∧
      ∀ after, ∃ n events more, s.pollEvents id after = .ok (events, more) ∧
        pollPage log after n = .events events more :=
  ⟨Store.history_page hx, Store.pollEvents_page hx⟩

theorem Store.pages_served_answered :
    let log := (Store.answered.sessionLog "s").map (EventRow.shown "claude" "s")
    (∀ before, ∃ n needsEarlier,
      Store.answered.history "s" before = .ok (historyPage log before n needsEarlier)) ∧
      ∀ after, ∃ n events more, Store.answered.pollEvents "s" after = .ok (events, more) ∧
        pollPage log after n = .events events more :=
  Store.pages_served Store.answered "s" Store.answeredSession (session_eq_ok.2 rfl)

end Host

/-- Says itself what is shown. -/
def Update.plain : Update → Bool
  | events _ | hasEarlier _ => true
  | _ => false

def Update.appends : Update → Bool
  | append .. => true
  | _ => false

def Update.selects : Update → Bool
  | select _ => true
  | _ => false

/-- The events that are shown after updates that append nothing. -/
def eventsAfter (events : List Event) (updates : List Update) : List Event :=
  updates.foldl (fun shown u =>
    match u with
    | .events events => events
    | _ => shown) events

def flagAfter (flag : Bool) (updates : List Update) : Bool :=
  updates.foldl (fun shown u =>
    match u with
    | .hasEarlier flag => flag
    | _ => shown) flag

namespace Workbench

variable (estimate : List Event → ℕ)

/-- Another session is being opened. -/
def selects (w : Workbench) : Bool := w.queue.any (·.selects)

/-- Rows of the poll of a session wait. -/
def appendsTo (w : Workbench) (scope : Scope) : Bool :=
  w.queue.any fun u =>
    match u with
    | .append s _ => s = scope
    | _ => false

/-- Rows that are appended find the window of their session in the cache. Or nothing is earlier, or
the cache does not keep events of that size anyway. -/
def finds (w : Workbench) : Update → Bool
  | .append scope page =>
    (w.cache.find scope).isSome || !w.hasEarlierHistory ||
      decide (w.cache.maxSize < estimate (appendEvents w.events page))
  | _ => true

/-- A window that earlier history is put in front of is the one it was asked for; or the session has
none in the cache, and is not shown, or nothing was polled since. -/
def awaits (w : Workbench) (load : EarlierLoad) : Bool :=
  match w.cache.find load.scope with
  | some entry => entry.before = some load.before
  | none => w.selected ≠ some load.scope || w.poller.all fun p => p.scope ≠ load.scope ||
      if p.replaying then p.initialWindow else p.cursor = newest load.cached

end Workbench

/-- What may happen in a run that loses nothing. Rows of a poll come while their session is shown
and no other is being opened. Earlier history comes when no rows of its session wait. Rows find the
window of their session in the cache when they are appended. -/
def Conversations.orderly (estimate : List Event → ℕ) (c : Conversations) : Happening → Bool
  | .polled => c.workbench.poller.all fun p => p.replaying ||
      match p.answer with
      | some (.events events _) => events.isEmpty ||
          (c.workbench.session = some p.scope && !c.workbench.selects)
      | _ => true
  | .earlierLoaded scope =>
    (c.workbench.earlierLoads.find? (·.scope = scope)).all fun load => load.answer.isNone ||
      (!c.workbench.appendsTo scope && c.workbench.awaits load)
  | .refreshed scope => c.workbench.session ≠ some scope || !c.workbench.selects
  | .rendered => !c.workbench.settled || decide (Runs.Throughout (Workbench.apply estimate)
      (fun w u => w.finds estimate u = true) { c.workbench with queue := [] } c.workbench.queue)
  | _ => true

/-- A call of `loadEarlierHistory` asks for what is before the window it saw. -/
def EarlierLoad.Asks (log : List Event) (load : EarlierLoad) : Prop :=
  ∃ rows, Joined [] load.cached rows ∧ rows.head?.map (·.seq) = some load.before ∧
    (∃ older, older ++ rows <+: log) ∧ ∀ r, load.answer = some r →
      ∃ older stretch, older ++ stretch ++ rows <+: log ∧ PageOf r older stretch

/-- What a poll has of the log, and what its answers are. -/
structure Poller.Reads (log : List Event) (p : Poller) : Prop where
  window : p.replaying = true → p.initialWindow = true →
    ∃ rows, Joined [] p.replay rows ∧ p.before = rows.head?.map (·.seq) ∧
      (∃ older, older ++ rows <+: log) ∧ ∀ r, p.answer = some (.history r) →
        ∃ older stretch, older ++ stretch ++ rows <+: log ∧ PageOf r older stretch
  full : p.replaying = true → p.initialWindow = false →
    p.replay <+: log ∧ p.cursor = newest p.replay
  live : p.replaying = false → p.initialWindow = false
  history : ∀ r, p.answer = some (.history r) → p.initialWindow = true
  events : ∀ events more, p.answer = some (.events events more) →
    p.initialWindow = false ∧ events <+: Paging.above Event.seq log p.cursor

/-- The entry of a window. -/
structure CacheEntry.Of (entry : CacheEntry) (older rows events : List Event) : Prop where
  events : entry.events = events
  hasEarlier : entry.hasEarlier = !older.isEmpty
  before : entry.before = beforeOf older rows

/-- The entries of a cache are windows of the logs. -/
def HistoryCache.Sound (logs : Scope → List Event) (cache : HistoryCache) : Prop :=
  ∀ scope entry, cache.find scope = some entry →
    ∃ older rows events, Loads (logs scope) older rows events ∧ entry.Of older rows events

/-- The window of a session that is polled: what is shown but for the pages that wait. -/
structure ShowsPart (log : List Event) (cache : HistoryCache) (p : Poller) (events : List Event)
    (flag : Bool) (pages : List (List Event)) (older rows : List Event) : Prop where
  loads : Loads log older rows events
  polled : older ++ rows ++ pages.flatten <+: log
  cursor : p.cursor = newest (older ++ rows ++ pages.flatten)
  flag : flag = !older.isEmpty
  entry : ∀ entry, cache.find p.scope = some entry → entry.Of older rows events

/-- What waits: updates that say what is shown, then pages of the poll, then what was set after
another session was selected. -/
structure Queued (logs : Scope → List Event) (w : Workbench) (scope : Scope) (front : List Update)
    (pages : List (List Event)) (rest : List Update) : Prop where
  queue : w.queue = front ++ pages.map (Update.append scope) ++ rest
  front_plain : ∀ u ∈ front, u.plain = true
  rest_appends : ∀ u ∈ rest, u.appends = false
  rest_selects : rest ≠ [] → ∃ u ∈ rest, u.selects = true
  polled : pages ≠ [] →
    ∃ p, w.poller = some p ∧ p.scope = scope ∧ p.replaying = false ∧ w.session = some scope
  shows : ∀ p, w.poller = some p → w.session = some p.scope → (pages ≠ [] ∨ rest = []) →
    p.replaying = false → ∃ older rows, ShowsPart (logs p.scope) w.cache p (eventsAfter w.events front)
      (flagAfter w.hasEarlierHistory front) pages older rows
  replays : ∀ p, w.poller = some p → w.session = some p.scope → rest = [] →
    p.replaying = true → p.initialWindow = false →
      flagAfter w.hasEarlierHistory front = false ∧ w.cache.find p.scope = none

/-- What every orderly run keeps. -/
structure Conversations.Sound (c : Conversations) : Prop where
  sorted : ∀ scope, (c.logs scope).Pairwise (·.seq < ·.seq)
  positive : ∀ scope, ∀ e ∈ c.logs scope, 0 < e.seq
  cache : c.workbench.cache.Sound c.logs
  loads : ∀ load ∈ c.workbench.earlierLoads, load.Asks (c.logs load.scope)
  poller : ∀ p, c.workbench.poller = some p → p.Reads (c.logs p.scope)
  queued : ∃ scope front pages rest, Queued c.logs c.workbench scope front pages rest
  selected : c.workbench.selected = c.workbench.session ∨
    (c.workbench.selects = true ∧ ∀ scope, c.workbench.selected = some scope →
      c.workbench.session ≠ some scope ∧ ∀ load ∈ c.workbench.earlierLoads, load.scope ≠ scope)
  targets : ∀ t, .select t ∈ c.workbench.queue → c.workbench.session ≠ none →
    t ≠ c.workbench.session

section Growth

variable {log log' : List Event} (hgrow : log <+: log')

include hgrow

theorem Loads.grow {older rows events : List Event} (h : Loads log older rows events) :
    Loads log' older rows events := ⟨h.part.trans hgrow, h.joined, h.start⟩

theorem ShowsPart.grow {cache : HistoryCache} {p : Poller} {events : List Event} {flag : Bool}
    {pages : List (List Event)} {older rows : List Event}
    (h : ShowsPart log cache p events flag pages older rows) :
    ShowsPart log' cache p events flag pages older rows :=
  ⟨h.loads.grow hgrow, h.polled.trans hgrow, h.cursor, h.flag, h.entry⟩

theorem EarlierLoad.Asks.grow {load : EarlierLoad} (h : load.Asks log) : load.Asks log' := by
  obtain ⟨rows, hjoined, hbefore, ⟨older, hpart⟩, hanswer⟩ := h
  refine ⟨rows, hjoined, hbefore, ⟨older, hpart.trans hgrow⟩, fun r hr => ?_⟩
  obtain ⟨older, stretch, hpart, hpage⟩ := hanswer r hr
  exact ⟨older, stretch, hpart.trans hgrow, hpage⟩

theorem Poller.Reads.grow {p : Poller} (h : p.Reads log) : p.Reads log' := by
  refine ⟨fun hr hw => ?_, fun hr hw => ⟨(h.full hr hw).1.trans hgrow, (h.full hr hw).2⟩, h.live,
    h.history, fun events more ha => ?_⟩
  · obtain ⟨rows, hjoined, hbefore, ⟨older, hpart⟩, hanswer⟩ := h.window hr hw
    refine ⟨rows, hjoined, hbefore, ⟨older, hpart.trans hgrow⟩, fun r hr => ?_⟩
    obtain ⟨older, stretch, hpart, hpage⟩ := hanswer r hr
    exact ⟨older, stretch, hpart.trans hgrow, hpage⟩
  · obtain ⟨hw, hpre⟩ := h.events events more ha
    exact ⟨hw, hpre.trans (hgrow.filter _)⟩

end Growth

/-- What the queue says of a poll. -/
def Poller.key (p : Poller) : Scope × ℕ × Bool × Bool :=
  (p.scope, if p.replaying then 0 else p.cursor, p.replaying, p.initialWindow)

/-- Nothing that the queue is about has changed, but for entries the cache has lost. -/
theorem Queued.transport {logs logs' : Scope → List Event} {w w' : Workbench} {scope : Scope}
    {front rest : List Update} {pages : List (List Event)} (h : Queued logs w scope front pages rest)
    (hlogs : ∀ scope, logs scope <+: logs' scope) (hqueue : w'.queue = w.queue)
    (hevents : w'.events = w.events) (hflag : w'.hasEarlierHistory = w.hasEarlierHistory)
    (hsession : w'.session = w.session) (hpoller : w'.poller.map Poller.key = w.poller.map Poller.key)
    (hcache : ∀ scope, w'.cache.find scope = none ∨ w'.cache.find scope = w.cache.find scope) :
    Queued logs' w' scope front pages rest := by
  have hback : ∀ p', w'.poller = some p' → ∃ p, w.poller = some p ∧ p.key = p'.key := by
    intro p' hp'
    rw [hp', Option.map_some] at hpoller
    exact Option.map_eq_some_iff.1 hpoller.symm
  refine ⟨hqueue.trans h.queue, h.front_plain, h.rest_appends, h.rest_selects, fun hpages => ?_,
    fun p' hp' hs hor hr => ?_, fun p' hp' hs hrest hr hw => ?_⟩
  · obtain ⟨p, hp, hscope, hr, hs⟩ := h.polled hpages
    rw [hp, Option.map_some] at hpoller
    obtain ⟨p', hp', hkey⟩ := Option.map_eq_some_iff.1 hpoller
    simp only [Poller.key, Prod.mk.injEq] at hkey
    exact ⟨p', hp', hkey.1.trans hscope, hkey.2.2.1.trans hr, hsession.trans hs⟩
  · obtain ⟨p, hp, hkey⟩ := hback p' hp'
    simp only [Poller.key, Prod.mk.injEq] at hkey
    rw [hsession, ← hkey.1] at hs
    have hlive : p.replaying = false := hkey.2.2.1.trans hr
    have hcursor : p.cursor = p'.cursor := by simpa [hlive, hr] using hkey.2.1
    obtain ⟨older, rows, hshows⟩ := h.shows p hp hs hor hlive
    rw [hevents, hflag, ← hkey.1]
    refine ⟨older, rows, hshows.loads.grow (hlogs _), hshows.polled.trans (hlogs _),
      hcursor.symm.trans hshows.cursor, hshows.flag, fun entry hentry => ?_⟩
    rw [← hkey.1] at hentry
    rcases hcache p.scope with hnone | hsame
    · rw [hnone] at hentry
      cases hentry
    · exact hshows.entry entry (hsame ▸ hentry)
  · obtain ⟨p, hp, hkey⟩ := hback p' hp'
    simp only [Poller.key, Prod.mk.injEq] at hkey
    rw [hsession, ← hkey.1] at hs
    obtain ⟨hfalse, hnone⟩ := h.replays p hp hs hrest (hkey.2.2.1.trans hr) (hkey.2.2.2.trans hw)
    rw [hflag, ← hkey.1]
    refine ⟨hfalse, ?_⟩
    rcases hcache p.scope with hnone' | hsame
    · exact hnone'
    · rw [hsame, hnone]

theorem eventsAfter_append (events : List Event) (front more : List Update) :
    eventsAfter events (front ++ more) = eventsAfter (eventsAfter events front) more :=
  List.foldl_append

theorem flagAfter_append (flag : Bool) (front more : List Update) :
    flagAfter flag (front ++ more) = flagAfter (flagAfter flag front) more :=
  List.foldl_append

/-- More that says what is shown waits, when no page does. -/
theorem Queued.more {logs : Scope → List Event} {w w' : Workbench} {scope : Scope}
    {front rest more : List Update} (h : Queued logs w scope front [] rest)
    (hmore : ∀ u ∈ more, u.plain = true) (hqueue : w'.queue = w.queue ++ more)
    (hshows : ∀ p, w'.poller = some p → w'.session = some p.scope → rest = [] →
      p.replaying = false → ∃ older rows, ShowsPart (logs p.scope) w'.cache p
        (eventsAfter (eventsAfter w'.events front) more)
        (flagAfter (flagAfter w'.hasEarlierHistory front) more) [] older rows)
    (hreplays : ∀ p, w'.poller = some p → w'.session = some p.scope → rest = [] →
      p.replaying = true → p.initialWindow = false →
        flagAfter (flagAfter w'.hasEarlierHistory front) more = false ∧
          w'.cache.find p.scope = none) :
    ∃ scope front pages rest, Queued logs w' scope front pages rest := by
  have hqueue' := hqueue.trans (congrArg (· ++ more) h.queue)
  simp only [List.map_nil, List.append_nil] at hqueue'
  by_cases hrest : rest = []
  · subst hrest
    refine ⟨scope, front ++ more, [], [], by simpa using hqueue', fun u hu => ?_, by simp, by simp,
      by simp, fun p hp hs _ hr => ?_, fun p hp hs _ hr hw => ?_⟩
    · exact (List.mem_append.1 hu).elim (h.front_plain u) (hmore u)
    · rw [eventsAfter_append, flagAfter_append]
      exact hshows p hp hs rfl hr
    · rw [flagAfter_append]
      exact hreplays p hp hs rfl hr hw
  · have hne : rest ++ more ≠ [] := List.append_ne_nil_of_left_ne_nil hrest _
    refine ⟨scope, front, [], rest ++ more, by simpa using hqueue', h.front_plain, fun u hu => ?_,
      fun _ => ?_, by simp, fun p hp hs hor hr => ?_, fun p hp hs hnil => absurd hnil hne⟩
    · rcases List.mem_append.1 hu with hu | hu
      · exact h.rest_appends u hu
      · have := hmore u hu
        cases u <;> first | rfl | cases this
    · obtain ⟨u, hu, hsel⟩ := h.rest_selects hrest
      exact ⟨u, List.mem_append_left _ hu, hsel⟩
    · exact absurd hor (by simp [hrest])

theorem Workbench.selects_more {w w' : Workbench} {more : List Update} (h : w.selects = true)
    (hqueue : w'.queue = w.queue ++ more) : w'.selects = true := by
  unfold selects at h ⊢
  rw [hqueue, List.any_append, h, Bool.true_or]

theorem select_of_more {queue more : List Update} (hmore : ∀ u ∈ more, u.selects = false)
    {t : Option Scope} (h : .select t ∈ queue ++ more) : .select t ∈ queue :=
  (List.mem_append.1 h).resolve_right fun hm => by cases hmore _ hm

section Cache

variable {estimate : List Event → ℕ} {logs : Scope → List Event} {cache : HistoryCache}
  {scope : Scope} {older rows events : List Event} {flag : Bool} {before : Option ℕ}

theorem HistoryCache.set_of (hflag : flag = !older.isEmpty) (hbefore : before = beforeOf older rows)
    (entry : CacheEntry) (h : (cache.set estimate scope events flag before).find scope = some entry) :
    entry.Of older rows events := by
  rcases @HistoryCache.find_set_self estimate cache scope events flag before with
    hnone | ⟨entry', hsome, hev, hfl, hbe⟩
  · rw [hnone] at h
    cases h
  · rw [hsome] at h
    obtain rfl := Option.some.inj h
    exact ⟨hev, hfl.trans hflag, hbe.trans hbefore⟩

theorem HistoryCache.Sound.set (h : cache.Sound logs) (hloads : Loads (logs scope) older rows events)
    (hflag : flag = !older.isEmpty) (hbefore : before = beforeOf older rows) :
    (cache.set estimate scope events flag before).Sound logs := by
  intro other entry hentry
  by_cases ho : other = scope
  · subst ho
    exact ⟨older, rows, events, hloads, HistoryCache.set_of hflag hbefore entry hentry⟩
  · rcases @HistoryCache.find_set_ne estimate cache scope other events flag before ho with
      hnone | hsame
    · rw [hnone] at hentry
      cases hentry
    · exact h other entry (hsame ▸ hentry)

theorem beforeOf_append {stretch : List Event} (h : older ≠ [] → stretch ≠ []) :
    beforeOf older (stretch ++ rows) = beforeOf older stretch := by
  unfold beforeOf
  split_ifs with he
  · rfl
  · rcases stretch with _ | ⟨first, more⟩
    · exact absurd rfl (h (by simpa using he))
    · rfl

/-- A page that the client takes has rows, if there are rows before it. -/
theorem PageOf.shows_rows {r : HistoryPage} {stretch : List Event} (h : PageOf r older stretch)
    (hgo : ¬(r.hasMore = true ∧ r.before = none)) : older ≠ [] → stretch ≠ [] := by
  rintro hne rfl
  refine hgo ⟨by simp [h.hasMore, hne], ?_⟩
  rw [h.before, beforeOf, if_neg (by simpa using hne)]
  rfl

end Cache

end LatteWork
