import LatteWork.Proofs.LoadedWindows

/-!
# What is shown is the log

The poll makes a window longer at its end and earlier history at its start, as long as neither
works on a window the other has left behind (`Conversations.loaded_log`).
-/

namespace LatteWork

namespace Conversations

variable {c : Conversations} {estimate : List Event → ℕ}

/-- The logs grow. -/
theorem Sound.grow (h : c.Sound) {logs : Scope → List Event}
    (hgrow : ∀ scope, c.logs scope <+: logs scope)
    (hsorted : ∀ scope, (logs scope).Pairwise (·.seq < ·.seq))
    (hpos : ∀ scope, ∀ e ∈ logs scope, 0 < e.seq) : Sound { c with logs } := by
  refine ⟨hsorted, hpos, fun scope entry hentry => ?_, fun load hload => (h.loads load hload).grow (hgrow _),
    fun p hp => (h.poller p hp).grow (hgrow _), ?_, h.selected, h.targets⟩
  · obtain ⟨older, rows, events, hloads, hof⟩ := h.cache scope entry hentry
    exact ⟨older, rows, events, hloads.grow (hgrow _), hof⟩
  · obtain ⟨scope, front, pages, rest, hqueued⟩ := h.queued
    exact ⟨scope, front, pages, rest,
      hqueued.transport hgrow rfl rfl rfl rfl rfl fun _ => .inr rfl⟩

theorem Sound.logged (h : c.Sound) (scope : Scope) (event : Event) :
    (c.step estimate (.logged scope event)).Sound := by
  unfold step
  dsimp only
  split_ifs with hnew
  · rw [Bool.and_eq_true, List.all_eq_true, decide_eq_true_eq] at hnew
    refine h.grow (fun s => ?_) (fun s => ?_) fun s => ?_
    · by_cases hs : s = scope
      · subst hs
        rw [Function.update_self]
        exact List.prefix_append _ _
      · exact ⟨[], by rw [List.append_nil, Function.update_of_ne hs]⟩
    · by_cases hs : s = scope
      · subst hs
        rw [Function.update_self, List.pairwise_append]
        refine ⟨h.sorted s, List.pairwise_singleton _ _, fun a ha b hb => ?_⟩
        rw [List.mem_singleton.1 hb]
        exact of_decide_eq_true (hnew.1 a ha)
      · rw [Function.update_of_ne hs]
        exact h.sorted s
    · by_cases hs : s = scope
      · subst hs
        rw [Function.update_self]
        intro e he
        rcases List.mem_append.1 he with he | he
        · exact h.positive s e he
        · rw [List.mem_singleton.1 he]
          exact hnew.2
      · rw [Function.update_of_ne hs]
        exact h.positive s
  · exact h

/-- What is below the oldest row of a part of a log is what is before it. -/
theorem below_part {log older rows : List Event} {before : ℕ} (hlog : log.Pairwise (·.seq < ·.seq))
    (hpart : older ++ rows <+: log) (hbefore : rows.head?.map (·.seq) = some before) :
    Paging.below Event.seq log (some before) = older := by
  obtain ⟨rest, rfl⟩ := hpart
  obtain ⟨first, hfirst, rfl⟩ := Option.map_eq_some_iff.1 hbefore
  obtain ⟨more, rfl⟩ := List.head?_eq_some_iff.1 hfirst
  rw [List.append_assoc, List.cons_append] at hlog ⊢
  exact Paging.filter_lt_of_split hlog

theorem historyPage_part {log rows : List Event} {before : Option ℕ}
    (hlog : log.Pairwise (·.seq < ·.seq)) (hbefore : before = rows.head?.map (·.seq))
    (hpart : ∃ older, older ++ rows <+: log) (n : ℕ) (needsEarlier : Bool) :
    ∃ older stretch, older ++ stretch ++ rows <+: log ∧
      PageOf (historyPage log before n needsEarlier) older stretch := by
  obtain ⟨older, stretch, hbelow, hpage⟩ := historyPage_of log before n needsEarlier
  refine ⟨older, stretch, ?_, hpage⟩
  rw [hbelow]
  rcases rows with _ | ⟨first, more⟩
  · rw [hbefore, List.append_nil]
    exact List.prefix_rfl
  · obtain ⟨older', hpart⟩ := hpart
    rw [hbefore, List.head?_cons, Option.map_some, below_part hlog hpart rfl]
    exact hpart

theorem Sound.pollAnswered (h : c.Sound) (n : ℕ) (needsEarlier : Bool) :
    (c.step estimate (.pollAnswered n needsEarlier)).Sound := by
  unfold step
  dsimp only
  rcases hp : c.workbench.poller with _ | p
  · exact h
  dsimp only
  split_ifs with hnone
  · have hreads := h.poller p hp
    refine ⟨h.sorted, h.positive, h.cache, h.loads, fun p' hp' => ?_, ?_, h.selected, h.targets⟩
    · obtain rfl := Option.some.inj hp'
      refine ⟨fun hr hw => ?_, hreads.full, hreads.live, fun r hr => ?_, fun events more ha => ?_⟩
      · obtain ⟨rows, hjoined, hbefore, hpart, -⟩ := hreads.window hr hw
        refine ⟨rows, hjoined, hbefore, hpart, fun r hr => ?_⟩
        have hw : p.initialWindow = true := hw
        simp only [answerPoll, hw, if_true, Option.some.injEq, PollAnswer.history.injEq] at hr
        rw [← hr]
        exact historyPage_part (h.sorted p.scope) hbefore hpart n needsEarlier
      · by_contra hw
        simp [answerPoll, hw, pollPage] at hr
      · unfold answerPoll at ha
        split_ifs at ha with hw
        · cases ha
        · simp only [pollPage, Option.some.injEq, PollAnswer.events.injEq] at ha
          rw [← ha.1]
          exact ⟨Bool.eq_false_iff.2 hw, List.take_prefix _ _⟩
    · obtain ⟨scope, front, pages, rest, hqueued⟩ := h.queued
      refine ⟨scope, front, pages, rest, hqueued.transport (fun _ => List.prefix_rfl) rfl rfl rfl rfl ?_
        fun _ => .inr rfl⟩
      rw [hp]
      rfl
  · exact h

/-- An answer to a request for the first window. -/
theorem Sound.polledWindow (h : c.Sound) {p : Poller} {r : HistoryPage}
    (hp : c.workbench.poller = some p) (ha : p.answer = some (.history r)) :
    Sound { c with workbench := c.workbench.poll estimate p (.history r) } := by
  have hreads := h.poller p hp
  have hw := hreads.history r ha
  have hr : p.replaying = true := by
    by_contra hlive
    rw [hreads.live (Bool.eq_false_iff.2 hlive)] at hw
    cases hw
  obtain ⟨rows, hjoined, hbefore, hpart, hanswer⟩ := hreads.window hr hw
  obtain ⟨older, stretch, hstretch, hpage⟩ := hanswer r ha
  obtain ⟨scope, front, pages, rest, hqueued⟩ := h.queued
  have hpages : pages = [] := by
    by_contra hne
    obtain ⟨p', hp', -, hlive, -⟩ := hqueued.polled hne
    rw [hp] at hp'
    obtain rfl := Option.some.inj hp'
    rw [hr] at hlive
    cases hlive
  unfold Workbench.poll
  dsimp only
  split_ifs with hstuck hmore
  · -- the same request is made again
    refine ⟨h.sorted, h.positive, h.cache, h.loads, fun p' hp' => ?_,
      ⟨scope, front, pages, rest, hqueued.transport (fun _ => List.prefix_rfl) rfl rfl rfl rfl
        (by rw [hp]; rfl) fun _ => .inr rfl⟩, h.selected, h.targets⟩
    obtain rfl := Option.some.inj hp'
    exact ⟨fun _ _ => ⟨rows, hjoined, hbefore, hpart, fun r hr => by cases hr⟩, hreads.full,
      hreads.live, (fun r hr => by cases hr), fun events more ha => by cases ha⟩
  all_goals
    have hrows := hpage.shows_rows (fun hno => hstuck (by simp [hno.1, hno.2]))
    have hextend := hjoined.extend (h.sorted p.scope) hstretch
    rw [← hpage.events] at hextend
  · refine ⟨h.sorted, h.positive, h.cache, h.loads, fun p' hp' => ?_,
      ⟨scope, front, pages, rest, hqueued.transport (fun _ => List.prefix_rfl) rfl rfl rfl rfl
        (by rw [hp]; rfl) fun _ => .inr rfl⟩, h.selected, h.targets⟩
    obtain rfl := Option.some.inj hp'
    refine ⟨fun _ _ => ⟨stretch ++ rows, hextend, ?_, ⟨older, by rwa [← List.append_assoc]⟩,
      fun r hr => by cases hr⟩, fun _ hno => ?_, fun hno => ?_, (fun r hr => by cases hr),
      fun events more ha => by cases ha⟩
    · have hne : older ≠ [] := by
        rw [hpage.hasMore, Bool.and_eq_true] at hmore
        simpa using hmore.2
      obtain ⟨first, more, rfl⟩ := List.exists_cons_of_ne_nil (hrows hne)
      rw [hpage.before, beforeOf, if_neg (by simpa using hne)]
      rfl
    · have hno : p.initialWindow = false := hno
      rw [hw] at hno
      cases hno
    · have hno : p.replaying = false := hno
      rw [hr] at hno
      cases hno
  · have hloads : Loads (c.logs p.scope) older (stretch ++ rows) (appendEvents r.events p.replay) :=
      ⟨by rwa [← List.append_assoc], hextend, fun hnil => by
        by_contra hne
        exact hrows hne (List.append_eq_nil_iff.1 hnil).1⟩
    have hbeforeOf : r.before = beforeOf older (stretch ++ rows) := by
      rw [beforeOf_append hrows, hpage.before]
    refine ⟨h.sorted, h.positive, h.cache.set hloads hpage.hasMore hbeforeOf, h.loads,
      fun p' hp' => ?_, ?_, ?_, ?_⟩
    · obtain rfl := Option.some.inj hp'
      exact ⟨(fun hno => by cases hno), (fun hno => by cases hno), fun _ => rfl,
        (fun r hr => by cases hr), fun events more ha => by cases ha⟩
    · subst hpages
      refine hqueued.more (by simp [Update.plain]) rfl (fun p' hp' _ _ _ => ?_) fun p' hp' _ _ hno => ?_
      · obtain rfl := Option.some.inj hp'
        refine ⟨older, stretch ++ rows, hloads, by simpa using hloads.part, ?_, hpage.hasMore,
          HistoryCache.set_of hpage.hasMore hbeforeOf⟩
        rw [List.flatten_nil, List.append_nil, hloads.newest_eq]
      · obtain rfl := Option.some.inj hp'
        cases hno
    · exact h.selected.imp_right fun hsel => ⟨Workbench.selects_more hsel.1 rfl, hsel.2⟩
    · exact fun t ht => h.targets t (select_of_more (by simp [Update.selects]) ht)

/-- Rows of the whole log, as long as they are not all there. -/
theorem Sound.polledAll (h : c.Sound) {p : Poller} {events : List Event} {hasMore : Bool}
    (hp : c.workbench.poller = some p) (ha : p.answer = some (.events events hasMore))
    (hr : p.replaying = true) :
    Sound { c with workbench := c.workbench.poll estimate p (.events events hasMore) } := by
  have hreads := h.poller p hp
  obtain ⟨hw, hprefix⟩ := hreads.events events hasMore ha
  obtain ⟨hreplay, hcursor⟩ := hreads.full hr hw
  obtain ⟨scope, front, pages, rest, hqueued⟩ := h.queued
  have hpages : pages = [] := by
    by_contra hne
    obtain ⟨p', hp', -, hlive, -⟩ := hqueued.polled hne
    rw [hp] at hp'
    obtain rfl := Option.some.inj hp'
    rw [hr] at hlive
    cases hlive
  have hall : p.replay ++ events <+: c.logs p.scope := by
    rw [← above_front (h.sorted p.scope) (h.positive p.scope) hreplay, ← hcursor]
    exact (List.prefix_append_right_inj _).2 hprefix
  have happend : appendEvents p.replay events = p.replay ++ events :=
    appendEvents_eq ((h.sorted p.scope).sublist hall.sublist)
  have hnewest : (if events.isEmpty then p.cursor else newest events) = newest (p.replay ++ events) := by
    rw [hcursor]
    exact cursor_append _ _
  unfold Workbench.poll
  dsimp only
  rw [if_pos hr, happend, hnewest]
  split_ifs
  · refine ⟨h.sorted, h.positive, h.cache, h.loads, fun p' hp' => ?_,
      ⟨scope, front, pages, rest, hqueued.transport (fun _ => List.prefix_rfl) rfl rfl rfl rfl
        (by rw [hp]; simp [Poller.key, hr]) fun _ => .inr rfl⟩, h.selected, h.targets⟩
    obtain rfl := Option.some.inj hp'
    refine ⟨fun _ hno => ?_, fun _ _ => ⟨hall, rfl⟩, hreads.live, (fun r hr => by cases hr),
      fun events more ha => by cases ha⟩
    have hno : p.initialWindow = true := hno
    rw [hw] at hno
    cases hno
  · have hloads : Loads (c.logs p.scope) [] (p.replay ++ events) (p.replay ++ events) :=
      ⟨hall, .refl _, fun _ => rfl⟩
    refine ⟨h.sorted, h.positive, h.cache.set hloads rfl rfl, h.loads, fun p' hp' => ?_, ?_, ?_, ?_⟩
    · obtain rfl := Option.some.inj hp'
      exact ⟨(fun hno => by cases hno), (fun hno => by cases hno), fun _ => hw,
        (fun r hr => by cases hr), fun events more ha => by cases ha⟩
    · subst hpages
      refine hqueued.more (by simp [Update.plain]) rfl (fun p' hp' hs hrest _ => ?_)
        fun p' hp' _ _ hno => ?_
      · obtain rfl := Option.some.inj hp'
        obtain ⟨hflag, -⟩ := hqueued.replays p hp hs hrest hr hw
        exact ⟨[], p.replay ++ events, hloads, by simpa using hall, by simp, hflag,
          HistoryCache.set_of rfl rfl⟩
      · obtain rfl := Option.some.inj hp'
        cases hno
    · exact h.selected.imp_right fun hsel => ⟨Workbench.selects_more hsel.1 rfl, hsel.2⟩
    · exact fun t ht => h.targets t (select_of_more (by simp [Update.selects]) ht)

/-- Rows behind the cursor, while their session is shown. -/
theorem Sound.polledRows (h : c.Sound) {p : Poller} {events : List Event} {hasMore : Bool}
    (hp : c.workbench.poller = some p) (ha : p.answer = some (.events events hasMore))
    (hr : p.replaying = false) (hshown : events ≠ [] →
      c.workbench.session = some p.scope ∧ c.workbench.selects = false) :
    Sound { c with workbench := c.workbench.poll estimate p (.events events hasMore) } := by
  have hreads := h.poller p hp
  obtain ⟨hw, hprefix⟩ := hreads.events events hasMore ha
  obtain ⟨scope, front, pages, rest, hqueued⟩ := h.queued
  unfold Workbench.poll
  dsimp only
  rw [if_neg (by simp [hr])]
  split_ifs with hnone
  · refine ⟨h.sorted, h.positive, h.cache, h.loads, fun p' hp' => ?_,
      ⟨scope, front, pages, rest, hqueued.transport (fun _ => List.prefix_rfl) rfl rfl rfl rfl
        (by rw [hp]; rfl) fun _ => .inr rfl⟩, h.selected, h.targets⟩
    obtain rfl := Option.some.inj hp'
    refine ⟨fun hno => ?_, fun hno => ?_, hreads.live, (fun r hr => by cases hr),
      fun events more ha => by cases ha⟩
    all_goals
      have hno : p.replaying = true := hno
      rw [hr] at hno
      cases hno
  · obtain ⟨hs, hsel⟩ := hshown (by simpa using hnone)
    obtain rfl : rest = [] := by
      by_contra hne
      obtain ⟨u, hu, husel⟩ := hqueued.rest_selects hne
      rw [Workbench.selects, List.any_eq_false] at hsel
      exact hsel u (by rw [hqueued.queue]; simp [hu]) husel
    have hscope : pages.map (Update.append scope) = pages.map (Update.append p.scope) := by
      rcases pages with _ | ⟨page, pages⟩
      · rfl
      · obtain ⟨p', hp', rfl, -, -⟩ := hqueued.polled (by simp)
        rw [hp] at hp'
        obtain rfl := Option.some.inj hp'
        rfl
    obtain ⟨older, rows, hshows⟩ := hqueued.shows p hp hs (.inr rfl) hr
    have hall : older ++ rows ++ (pages ++ [events]).flatten <+: c.logs p.scope := by
      rw [List.flatten_append, List.flatten_singleton, ← List.append_assoc,
        ← above_front (h.sorted p.scope) (h.positive p.scope) hshows.polled, ← hshows.cursor]
      exact (List.prefix_append_right_inj _).2 hprefix
    have hnewest : newest events = newest (older ++ rows ++ (pages ++ [events]).flatten) := by
      rw [List.flatten_append, List.flatten_singleton, ← List.append_assoc,
        newest_append_of_ne (by simpa using hnone)]
    refine ⟨h.sorted, h.positive, h.cache, h.loads, fun p' hp' => ?_,
      ⟨p.scope, front, pages ++ [events], [], ?_, hqueued.front_plain, by simp, by simp,
        fun _ => ⟨_, rfl, rfl, hr, hs⟩, fun p' hp' _ _ _ => ?_, fun p' hp' _ _ hno => ?_⟩, ?_, ?_⟩
    · obtain rfl := Option.some.inj hp'
      refine ⟨fun hno => ?_, fun hno => ?_, hreads.live, (fun r hr => by cases hr),
        fun events more ha => by cases ha⟩
      all_goals
        have hno : p.replaying = true := hno
        rw [hr] at hno
        cases hno
    · rw [hqueued.queue, hscope]
      simp
    · obtain rfl := Option.some.inj hp'
      exact ⟨older, rows, hshows.loads, hall, hnewest, hshows.flag, hshows.entry⟩
    · obtain rfl := Option.some.inj hp'
      have hno : p.replaying = true := hno
      rw [hr] at hno
      cases hno
    · exact h.selected.imp_right fun hsel => ⟨Workbench.selects_more hsel.1 rfl, hsel.2⟩
    · exact fun t ht => h.targets t (select_of_more (by simp [Update.selects]) ht)

/-- The poll handles its answer. -/
theorem Sound.polled (h : c.Sound) (ho : c.orderly estimate .polled = true) :
    (c.step estimate .polled).Sound := by
  unfold step
  dsimp only
  rcases hp : c.workbench.poller with _ | p
  · exact h
  dsimp only
  rcases ha : p.answer with _ | r
  · exact h
  dsimp only
  rcases r with r | ⟨events, hasMore⟩
  · exact h.polledWindow hp ha
  · by_cases hr : p.replaying = true
    · exact h.polledAll hp ha hr
    · refine h.polledRows hp ha (Bool.eq_false_iff.2 hr) fun hne => ?_
      simp only [orderly, hp, Option.all_some, ha, hr, Bool.false_or, Bool.or_eq_true,
        List.isEmpty_iff, hne, false_or, Bool.and_eq_true, decide_eq_true_eq, Bool.not_eq_true'] at ho
      exact ho

/-- An entry is read. -/
theorem Sound.touched (h : c.Sound) (scope : Scope) :
    Sound { c with workbench.cache := (c.workbench.cache.get scope).2 } := by
  refine ⟨h.sorted, h.positive, fun other entry hentry => ?_, h.loads, h.poller, ?_, h.selected,
    h.targets⟩
  · rw [HistoryCache.find_get] at hentry
    exact h.cache other entry hentry
  · obtain ⟨scope', front, pages, rest, hqueued⟩ := h.queued
    exact ⟨scope', front, pages, rest, hqueued.transport (fun _ => List.prefix_rfl) rfl rfl rfl rfl rfl
      fun other => .inr (HistoryCache.find_get _ _ _)⟩

/-- The calls of `loadEarlierHistory` change. -/
theorem Sound.withLoads (h : c.Sound) {loads : List EarlierLoad}
    (hloads : ∀ load ∈ loads, load.Asks (c.logs load.scope))
    (hscopes : ∀ load ∈ loads, c.workbench.session = some load.scope ∨
      ∃ asked ∈ c.workbench.earlierLoads, asked.scope = load.scope) :
    Sound { c with workbench.earlierLoads := loads } := by
  refine ⟨h.sorted, h.positive, h.cache, hloads, h.poller, ?_, ?_, h.targets⟩
  · obtain ⟨scope, front, pages, rest, hqueued⟩ := h.queued
    exact ⟨scope, front, pages, rest, hqueued.transport (fun _ => List.prefix_rfl) rfl rfl rfl rfl rfl
      fun _ => .inr rfl⟩
  · refine h.selected.imp_right fun ⟨hsel, hnew⟩ => ⟨hsel, fun scope hs => ?_⟩
    obtain ⟨hother, hasked⟩ := hnew scope hs
    refine ⟨hother, fun load hload heq => ?_⟩
    rcases hscopes load hload with hsession | ⟨asked, hmem, hscope⟩
    · exact hother (heq ▸ hsession)
    · exact hasked asked hmem (hscope.trans heq)

theorem Sound.earlierAsked (h : c.Sound) : (c.step estimate .earlierAsked).Sound := by
  unfold step Workbench.loadEarlierHistory
  dsimp only
  split
  · exact h
  rename_i scope hs
  have htouched := h.touched scope
  split
  · rename_i cached before hcached hbefore
    split_ifs with hno
    · exact htouched
    · refine htouched.withLoads (fun load hload => ?_) fun load hload => ?_
      rotate_left
      · rcases List.mem_append.1 hload with hload | hload
        · exact .inr ⟨load, hload, rfl⟩
        · obtain rfl := List.mem_singleton.1 hload
          exact .inl hs
      rcases List.mem_append.1 hload with hload | hload
      · exact h.loads load hload
      · obtain rfl := List.mem_singleton.1 hload
        rw [HistoryCache.get_events] at hcached
        obtain ⟨entry, hentry, rfl⟩ := Option.map_eq_some_iff.1 hcached
        obtain ⟨older, rows, events, hloads, hof⟩ := h.cache scope entry hentry
        rw [HistoryCache.before, HistoryCache.find_get, hentry, Option.bind_some, hof.before] at hbefore
        refine ⟨rows, hof.events ▸ hloads.joined, ?_, ⟨older, hloads.part⟩, fun r hr => by cases hr⟩
        unfold beforeOf at hbefore
        split_ifs at hbefore
        exact hbefore
  · exact htouched

theorem Sound.earlierAnswered (h : c.Sound) (scope : Scope) (n : ℕ) (needsEarlier : Bool) :
    (c.step estimate (.earlierAnswered scope n needsEarlier)).Sound := by
  refine h.withLoads (fun load hload => ?_) fun load hload => ?_
  rotate_left
  · obtain ⟨asked, hasked, rfl⟩ := List.mem_map.1 hload
    refine .inr ⟨asked, hasked, ?_⟩
    dsimp only
    split_ifs <;> rfl
  obtain ⟨asked, hasked, rfl⟩ := List.mem_map.1 hload
  dsimp only
  split_ifs with hanswers
  · obtain ⟨rows, hjoined, hbefore, hpart, -⟩ := h.loads asked hasked
    refine ⟨rows, hjoined, hbefore, hpart, fun r hr => ?_⟩
    rw [Bool.and_eq_true, decide_eq_true_eq] at hanswers
    obtain rfl := Option.some.inj hr
    rw [← hanswers.1]
    exact historyPage_part (h.sorted _) hbefore.symm hpart n needsEarlier
  · exact h.loads asked hasked

theorem Sound.endEarlier (h : c.Sound) (scope : Scope) :
    Sound { c with workbench := c.workbench.endEarlier scope } :=
  h.withLoads (fun load hload => h.loads load (List.mem_filter.1 hload).1) fun load hload =>
    .inr ⟨load, (List.mem_filter.1 hload).1, rfl⟩

/-- A session is selected. -/
theorem Sound.selects (h : c.Sound) {more : List Update} {selected : Option Scope}
    (hmore : ∀ u ∈ more, u.appends = false) (hselects : ∃ u ∈ more, u.selects = true)
    (hselected : selected = c.workbench.selected ∨ ∀ scope, selected = some scope →
      c.workbench.session ≠ some scope ∧ ∀ load ∈ c.workbench.earlierLoads, load.scope ≠ scope)
    (htargets : ∀ t, .select t ∈ more → c.workbench.session ≠ none → t ≠ c.workbench.session) :
    Sound { c with workbench.queue := c.workbench.queue ++ more, workbench.selected := selected } := by
  have hnone : more ≠ [] := by
    rintro rfl
    simp at hselects
  refine ⟨h.sorted, h.positive, h.cache, h.loads, h.poller, ?_, ?_, fun t ht => ?_⟩
  · obtain ⟨scope, front, pages, rest, hqueued⟩ := h.queued
    have hne : rest ++ more ≠ [] := List.append_ne_nil_of_right_ne_nil _ hnone
    refine ⟨scope, front, pages, rest ++ more, ?_, hqueued.front_plain, fun u hu => ?_, fun _ => ?_,
      hqueued.polled, fun p hp hs hor hr => ?_, fun p hp hs hnil => absurd hnil hne⟩
    · rw [← List.append_assoc, ← hqueued.queue]
    · exact (List.mem_append.1 hu).elim (hqueued.rest_appends u) (hmore u)
    · obtain ⟨u, hu, hsel⟩ := hselects
      exact ⟨u, List.mem_append_right _ hu, hsel⟩
    · exact hqueued.shows p hp hs (.inl (hor.resolve_right hne)) hr
  · have hsel : (c.workbench.queue ++ more).any (·.selects) = true := by
      obtain ⟨u, hu, hsel⟩ := hselects
      exact List.any_eq_true.2 ⟨u, List.mem_append_right _ hu, hsel⟩
    rcases hselected with rfl | hnew
    · exact h.selected.imp_right fun hs => ⟨hsel, hs.2⟩
    · exact .inr ⟨hsel, hnew⟩
  · exact (List.mem_append.1 ht).elim (h.targets t) (htargets t)

theorem Sound.opened (h : c.Sound) (scope : Scope) (crossing : Bool) :
    (c.step estimate (.opened scope crossing)).Sound := by
  unfold step Workbench.openSession
  dsimp only
  split_ifs with hsame hcrossing
  · exact h
  · refine @Sound.selects _ (h.touched scope) _ c.workbench.selected (by simp [Update.appends])
      (by simp [Update.selects]) (.inl rfl) fun t ht hne => ?_
    have ht : t = none ∨ t = some scope := by simpa using ht
    rcases ht with rfl | rfl
    · exact Ne.symm hne
    · exact Ne.symm hsame
  · refine @Sound.selects _ (h.touched scope) _ c.workbench.selected (by simp [Update.appends])
      (by simp [Update.selects]) (.inl rfl) fun t ht _ => ?_
    obtain rfl : t = some scope := by simpa using ht
    exact Ne.symm hsame

/-- No session is selected. -/
theorem Sound.unselected (h : c.Sound) {selected : Option Scope}
    (hselected : selected = c.workbench.selected ∨ selected = none) :
    Sound { c with
      workbench.queue := c.workbench.queue ++ [.select none, .events []]
      workbench.selected := selected } := by
  refine h.selects (by simp [Update.appends]) (by simp [Update.selects])
    (hselected.imp_right fun hnone scope hs => ?_) fun t ht hne => ?_
  · cases hnone.symm.trans hs
  · obtain rfl : t = none := by simpa using ht
    exact Ne.symm hne

theorem Sound.created (h : c.Sound) (scope : Scope) : (c.step estimate (.created scope)).Sound := by
  unfold step Workbench.persistSession
  dsimp only
  split_ifs with hold
  · exact h
  · rw [Bool.or_eq_true, decide_eq_true_eq, List.any_eq_true, not_or, not_exists] at hold
    refine h.selects (by simp [Update.appends]) (by simp [Update.selects]) (.inr fun s hs => ?_)
      fun t ht _ => ?_
    · obtain rfl := Option.some.inj hs
      exact ⟨hold.1, fun load hload heq => hold.2 load ⟨hload, decide_eq_true heq⟩⟩
    · obtain rfl : t = some scope := by simpa using ht
      exact Ne.symm hold.1

/-- The effect of a rendering with another session. -/
theorem Sound.effectRan (h : c.Sound) (windowed : Bool) :
    (c.step estimate (.effectRan windowed)).Sound := by
  unfold step Workbench.pollEffect
  dsimp only
  split_ifs with hsettled
  · exact h
  obtain ⟨scope', front, pages, rest, hqueued⟩ := h.queued
  obtain rfl : pages = [] := by
    by_contra hne
    obtain ⟨p, hp, rfl, -, hs⟩ := hqueued.polled hne
    exact hsettled (by simp [Workbench.settled, hp, hs])
  split
  · refine ⟨h.sorted, h.positive, h.cache, h.loads, (fun p hp => by cases hp), ?_, h.selected, h.targets⟩
    exact @Queued.more _ _ _ _ _ _ [] hqueued (by simp) (List.append_nil _).symm
      (fun p hp => by cases hp) fun p hp => by cases hp
  · rename_i scope hs
    have htouched := h.touched scope
    refine ⟨h.sorted, h.positive, htouched.cache, h.loads, fun p hp => ?_, ?_, ?_, ?_⟩
    · obtain rfl := Option.some.inj hp
      refine ⟨fun _ _ => ⟨[], .nil, rfl, ⟨[], List.nil_prefix⟩, fun r hr => by cases hr⟩,
        fun hnone _ => ⟨List.nil_prefix, ?_⟩, fun hsome => ?_, (fun r hr => by cases hr),
        fun events more ha => by cases ha⟩
      · have hnone : (c.workbench.cache.get scope).1.isNone = true := hnone
        rw [Option.isNone_iff_eq_none] at hnone
        rw [hnone]
        rfl
      · have hsome : (c.workbench.cache.get scope).1.isNone = false := hsome
        rw [hsome, Bool.false_and]
    · refine hqueued.more (by simp [Update.plain]) rfl (fun p hp _ _ hr => ?_) fun p hp _ _ hr _ => ?_
      · obtain rfl := Option.some.inj hp
        have hr : (c.workbench.cache.get scope).1.isNone = false := hr
        rcases hentry : c.workbench.cache.find scope with _ | entry
        · rw [HistoryCache.get_events, hentry] at hr
          cases hr
        obtain ⟨older, rows, events, hloads, hof⟩ := h.cache scope entry hentry
        have hcached : (c.workbench.cache.get scope).1.getD [] = events := by
          rw [HistoryCache.get_events, hentry]
          exact hof.events
        refine ⟨older, rows, ?_, by simpa using hloads.part, ?_, ?_, fun entry' hentry' => ?_⟩
        · rwa [hcached]
        · rw [List.flatten_nil, List.append_nil, hloads.newest_eq, hcached]
        · change c.workbench.cache.hasEarlier scope = _
          rw [HistoryCache.hasEarlier, hentry]
          exact hof.hasEarlier
        · rw [HistoryCache.find_get, hentry] at hentry'
          obtain rfl := Option.some.inj hentry'
          rwa [hcached]
      · obtain rfl := Option.some.inj hp
        have hr : (c.workbench.cache.get scope).1.isNone = true := hr
        have hnone : c.workbench.cache.find scope = none := by
          rw [HistoryCache.get_events, Option.isNone_iff_eq_none, Option.map_eq_none_iff] at hr
          exact hr
        refine ⟨?_, (HistoryCache.find_get _ _ _).trans hnone⟩
        change c.workbench.cache.hasEarlier scope = _
        rw [HistoryCache.hasEarlier, hnone]
        rfl
    · exact h.selected.imp_right fun hsel => ⟨Workbench.selects_more hsel.1 rfl, hsel.2⟩
    · exact fun t ht => h.targets t (select_of_more (by simp [Update.selects]) ht)

end Conversations

namespace Workbench

variable {estimate : List Event → ℕ} {w : Workbench}

theorem foldl_rest (updates : List Update) :
    (updates.foldl (apply estimate) w).poller = w.poller ∧
      (updates.foldl (apply estimate) w).earlierLoads = w.earlierLoads ∧
      (updates.foldl (apply estimate) w).queue = w.queue := by
  induction updates generalizing w with
  | nil => exact ⟨rfl, rfl, rfl⟩
  | cons u _ ih =>
    obtain ⟨hp, hl, hq⟩ := @ih (w.apply estimate u)
    exact ⟨hp.trans (by cases u <;> rfl), hl.trans (by cases u <;> rfl), hq.trans (by cases u <;> rfl)⟩

theorem foldl_plain {updates : List Update} (h : ∀ u ∈ updates, u.plain = true) :
    updates.foldl (apply estimate) w =
      { w with
        events := eventsAfter w.events updates
        hasEarlierHistory := flagAfter w.hasEarlierHistory updates } := by
  induction updates generalizing w with
  | nil => rfl
  | cons u _ ih =>
    rw [List.foldl_cons, ih fun u hu => h u (List.mem_cons_of_mem _ hu)]
    have hu := h u List.mem_cons_self
    cases u <;> first | rfl | cases hu

theorem foldl_cache {updates : List Update} (h : ∀ u ∈ updates, u.appends = false) :
    (updates.foldl (apply estimate) w).cache = w.cache := by
  induction updates generalizing w with
  | nil => rfl
  | cons u _ ih =>
    rw [List.foldl_cons, ih fun u hu => h u (List.mem_cons_of_mem _ hu)]
    have hu := h u List.mem_cons_self
    cases u <;> first | rfl | cases hu

/-- The session is the one that was selected last. -/
theorem foldl_session (updates : List Update) :
    .select (updates.foldl (apply estimate) w).session ∈ updates ∨
      ((updates.foldl (apply estimate) w).session = w.session ∧
        ∀ u ∈ updates, u.selects = false) := by
  induction updates generalizing w with
  | nil => exact .inr ⟨rfl, by simp⟩
  | cons u _ ih =>
    rw [List.foldl_cons]
    rcases @ih (w.apply estimate u) with h | ⟨hs, hno⟩
    · exact .inl (List.mem_cons_of_mem _ h)
    · rw [hs]
      cases u with
      | select t => exact .inl List.mem_cons_self
      | events | append | hasEarlier =>
        refine .inr ⟨rfl, fun u hu => ?_⟩
        rcases List.mem_cons.1 hu with rfl | hu
        · rfl
        · exact hno u hu

/-- A page of the poll goes behind the window, on the screen and in the cache. -/
theorem append_shows {logs : Scope → List Event} {p : Poller} {page : List Event}
    {pages : List (List Event)} {older rows : List Event}
    (hsorted : (logs p.scope).Pairwise (·.seq < ·.seq)) (hcache : w.cache.Sound logs)
    (h : ShowsPart (logs p.scope) w.cache p w.events w.hasEarlierHistory (page :: pages) older rows)
    (hfinds : w.finds estimate (.append p.scope page) = true) :
    (w.apply estimate (.append p.scope page)).cache.Sound logs ∧
      ShowsPart (logs p.scope) (w.apply estimate (.append p.scope page)).cache p
        (w.apply estimate (.append p.scope page)).events w.hasEarlierHistory pages older
        (rows ++ page) := by
  have hpolled := h.polled
  rw [List.flatten_cons, ← List.append_assoc, List.append_assoc older] at hpolled
  have hpart : older ++ (rows ++ page) <+: logs p.scope :=
    (List.prefix_append _ _).trans hpolled
  have hjoined : Joined [] (w.events ++ page) (rows ++ page) := h.loads.joined.append (.refl page)
  have hrows : (rows ++ page).Pairwise (·.seq < ·.seq) :=
    hsorted.sublist ((List.sublist_append_right _ _).trans hpart.sublist)
  have happend : appendEvents w.events page = w.events ++ page :=
    appendEvents_eq (hjoined.sorted hrows)
  have hloads : Loads (logs p.scope) older (rows ++ page) (appendEvents w.events page) :=
    ⟨hpart, happend ▸ hjoined, fun hnil => h.loads.start (List.append_eq_nil_iff.1 hnil).1⟩
  have hbefore : beforeOf older (rows ++ page) = beforeOf older rows :=
    beforeOf_append fun hne hnil => hne (h.loads.start hnil)
  have hset : (w.cache.hasEarlier p.scope = !older.isEmpty ∧
        w.cache.before p.scope = beforeOf older (rows ++ page)) ∨
      w.cache.maxSize < estimate (appendEvents w.events page) := by
    rw [finds, Bool.or_eq_true, Bool.or_eq_true, decide_eq_true_eq, Bool.not_eq_true'] at hfinds
    rcases hentry : w.cache.find p.scope with _ | entry
    · rcases hfinds with (hsome | hflag) | hlarge
      · rw [hentry] at hsome
        cases hsome
      · obtain rfl : older = [] := by simpa [hflag] using h.flag
        refine .inl ⟨?_, ?_⟩
        · rw [HistoryCache.hasEarlier, hentry]
          rfl
        · rw [HistoryCache.before, hentry]
          rfl
      · exact .inr hlarge
    · have hof := h.entry entry hentry
      refine .inl ⟨?_, ?_⟩
      · rw [HistoryCache.hasEarlier, hentry]
        exact hof.hasEarlier
      · rw [HistoryCache.before, hentry, hbefore]
        exact hof.before
  have hcursor : p.cursor = newest (older ++ (rows ++ page) ++ pages.flatten) := by
    rw [h.cursor, List.flatten_cons]
    simp only [List.append_assoc]
  unfold apply
  dsimp only
  rcases hset with ⟨hflag, hbe⟩ | hlarge
  · exact ⟨hcache.set hloads hflag hbe, hloads, by simpa using hpolled, hcursor, h.flag,
      HistoryCache.set_of hflag hbe⟩
  · have hnone := @HistoryCache.find_set_large estimate w.cache p.scope (appendEvents w.events page)
      (w.cache.hasEarlier p.scope) (w.cache.before p.scope) hlarge
    refine ⟨fun other entry hentry => ?_, hloads, by simpa using hpolled, hcursor, h.flag,
      fun entry hentry => ?_⟩
    · by_cases ho : other = p.scope
      · rw [ho, hnone] at hentry
        cases hentry
      · rcases @HistoryCache.find_set_ne estimate w.cache p.scope other _ _ _ ho with hno | hsame
        · rw [hno] at hentry
          cases hentry
        · exact hcache other entry (hsame ▸ hentry)
    · rw [hnone] at hentry
      cases hentry

/-- All pages of the poll that wait are appended. -/
theorem foldl_shows {logs : Scope → List Event} {p : Poller}
    (hsorted : (logs p.scope).Pairwise (·.seq < ·.seq)) :
    ∀ (pages : List (List Event)) (w : Workbench) (older rows : List Event), w.cache.Sound logs →
      ShowsPart (logs p.scope) w.cache p w.events w.hasEarlierHistory pages older rows →
      Runs.Throughout (apply estimate) (fun w u => w.finds estimate u = true) w
        (pages.map (Update.append p.scope)) →
      ((pages.map (Update.append p.scope)).foldl (apply estimate) w).cache.Sound logs ∧
        ∃ rows, ShowsPart (logs p.scope) ((pages.map (Update.append p.scope)).foldl (apply estimate) w).cache p
          ((pages.map (Update.append p.scope)).foldl (apply estimate) w).events
          ((pages.map (Update.append p.scope)).foldl (apply estimate) w).hasEarlierHistory [] older rows
  | [], _, _, rows, hcache, h, _ => ⟨hcache, rows, h⟩
  | page :: pages, w, older, rows, hcache, h, hfinds => by
    obtain ⟨hcache', h'⟩ := append_shows hsorted hcache h hfinds.1
    exact foldl_shows hsorted pages _ older _ hcache' h' hfinds.2

end Workbench

namespace Conversations

variable {c : Conversations} {estimate : List Event → ℕ}

/-- A refresh opens what was requested. -/
theorem Sound.refreshed (h : c.Sound) (scope : Scope)
    (ho : c.orderly estimate (.refreshed scope) = true) :
    (c.step estimate (.refreshed scope)).Sound := by
  unfold step Workbench.sessionAfterRefresh
  dsimp only
  split_ifs with hsame
  · exact h
  · refine @Sound.selects _ h _ c.workbench.selected (by simp [Update.appends])
      (by simp [Update.selects]) (.inl rfl) fun t ht _ hs => ?_
    obtain rfl : t = some scope := by simpa using ht
    have hno : c.workbench.selects = false := by simpa [orderly, ← hs] using ho
    rcases @Workbench.foldl_session estimate c.workbench c.workbench.queue with hmem | ⟨heq, -⟩
    · rw [Workbench.selects, List.any_eq_false] at hno
      exact hno _ hmem rfl
    · exact hsame (heq.trans hs.symm)

/-- React renders. -/
theorem Sound.rendered (h : c.Sound) (ho : c.orderly estimate .rendered = true) :
    (c.step estimate .rendered).Sound := by
  unfold step Workbench.render
  dsimp only
  split_ifs with hsettled
  swap
  · exact h
  simp only [orderly, hsettled, Bool.not_true, Bool.false_or, decide_eq_true_eq] at ho
  obtain ⟨scope, front, pages, rest, hqueued⟩ := h.queued
  rw [hqueued.queue, Runs.throughout_append, Runs.throughout_append] at ho
  obtain ⟨⟨-, hfinds⟩, -⟩ := ho
  have hfront := @Workbench.foldl_plain estimate { c.workbench with queue := [] } front
    hqueued.front_plain
  have hrun : Runs.run (Workbench.apply estimate) { c.workbench with queue := [] } front =
      front.foldl (Workbench.apply estimate) { c.workbench with queue := [] } := rfl
  rw [hrun, hfront] at hfinds
  rw [hqueued.queue, List.foldl_append, List.foldl_append, hfront]
  dsimp only at hfinds ⊢
  generalize hw₁ : ({ c.workbench with
    events := eventsAfter c.workbench.events front
    hasEarlierHistory := flagAfter c.workbench.hasEarlierHistory front
    queue := [] } : Workbench) = w₁ at hfinds ⊢
  have hcache₁ : w₁.cache = c.workbench.cache := by rw [← hw₁]
  have hevents₁ : w₁.events = eventsAfter c.workbench.events front := by rw [← hw₁]
  have hflag₁ : w₁.hasEarlierHistory = flagAfter c.workbench.hasEarlierHistory front := by rw [← hw₁]
  have hsession₁ : w₁.session = c.workbench.session := by rw [← hw₁]
  have hpoller₁ : w₁.poller = c.workbench.poller := by rw [← hw₁]
  have hloads₁ : w₁.earlierLoads = c.workbench.earlierLoads := by rw [← hw₁]
  have hqueue₁ : w₁.queue = [] := by rw [← hw₁]
  have hcache := h.cache
  rw [← hcache₁] at hcache
  -- the pages that wait are appended to the window they belong to
  have hpages : ((pages.map (Update.append scope)).foldl (Workbench.apply estimate) w₁).cache.Sound
      c.logs ∧ ∀ p, c.workbench.poller = some p → c.workbench.session = some p.scope → rest = [] →
        p.replaying = false → ∃ older rows, ShowsPart (c.logs p.scope)
          ((pages.map (Update.append scope)).foldl (Workbench.apply estimate) w₁).cache p
          ((pages.map (Update.append scope)).foldl (Workbench.apply estimate) w₁).events
          ((pages.map (Update.append scope)).foldl (Workbench.apply estimate) w₁).hasEarlierHistory []
          older rows := by
    by_cases hnil : pages = []
    · subst hnil
      refine ⟨hcache, fun p hp hs hrest hr => ?_⟩
      rw [List.map_nil, List.foldl_nil, hcache₁, hevents₁, hflag₁]
      exact hqueued.shows p hp hs (.inr hrest) hr
    · obtain ⟨p, hp, rfl, hr, hs⟩ := hqueued.polled hnil
      obtain ⟨older, rows, hshows⟩ := hqueued.shows p hp hs (.inl hnil) hr
      rw [← hcache₁, ← hevents₁, ← hflag₁] at hshows
      obtain ⟨hcache', rows', hshows'⟩ := Workbench.foldl_shows (h.sorted p.scope) pages w₁ older rows
        hcache hshows hfinds
      refine ⟨hcache', fun p' hp' _ _ _ => ?_⟩
      rw [hp] at hp'
      obtain rfl := Option.some.inj hp'
      exact ⟨older, rows', hshows'⟩
  have hsession₂ : ((pages.map (Update.append scope)).foldl (Workbench.apply estimate) w₁).session =
      c.workbench.session := by
    rcases @Workbench.foldl_session estimate w₁ (pages.map (Update.append scope)) with hsel | hsame
    · obtain ⟨page, -, hpage⟩ := List.mem_map.1 hsel
      cases hpage
    · exact hsame.1.trans hsession₁
  obtain ⟨hpoller₂, hloads₂, hqueue₂⟩ :=
    @Workbench.foldl_rest estimate w₁ (pages.map (Update.append scope))
  rw [hpoller₁] at hpoller₂
  rw [hloads₁] at hloads₂
  rw [hqueue₁] at hqueue₂
  have hsame₂ : pages = [] →
      (pages.map (Update.append scope)).foldl (Workbench.apply estimate) w₁ = w₁ := by
    rintro rfl
    rfl
  generalize (pages.map (Update.append scope)).foldl (Workbench.apply estimate) w₁ = w₂ at *
  have hcache₃ := @Workbench.foldl_cache estimate w₂ rest hqueued.rest_appends
  obtain ⟨hpoller₃, hloads₃, hqueue₃⟩ := @Workbench.foldl_rest estimate w₂ rest
  have hsession₃ := @Workbench.foldl_session estimate w₂ rest
  have hsame₃ : rest = [] → rest.foldl (Workbench.apply estimate) w₂ = w₂ := by
    rintro rfl
    rfl
  generalize rest.foldl (Workbench.apply estimate) w₂ = w₃ at *
  rw [hpoller₂] at hpoller₃
  rw [hloads₂] at hloads₃
  rw [hqueue₂] at hqueue₃
  -- a session that was selected is not the one that was polled
  have hrest : ∀ p, c.workbench.poller = some p → w₃.session = some p.scope →
      c.workbench.session = some p.scope ∧ rest = [] := by
    intro p hp hs
    have hold : c.workbench.session = some p.scope := by
      rw [Workbench.settled, decide_eq_true_eq, hp] at hsettled
      exact hsettled.symm
    rcases hsession₃ with hsel | ⟨-, hno⟩
    · have := h.targets w₃.session (by rw [hqueued.queue]; simp [hsel]) (by simp [hold])
      exact absurd (hs.trans hold.symm) this
    · refine ⟨hold, ?_⟩
      by_contra hne
      obtain ⟨u, hu, husel⟩ := hqueued.rest_selects hne
      rw [hno u hu] at husel
      cases husel
  refine ⟨h.sorted, h.positive, ?_, ?_, ?_, ⟨scope, [], [], [], hqueue₃, by simp, by simp, by simp,
    by simp, fun p hp hs _ hr => ?_, fun p hp hs _ hr hw => ?_⟩, .inl rfl, ?_⟩
  · rw [show ({ w₃ with selected := w₃.session } : Workbench).cache = w₂.cache from hcache₃]
    exact hpages.1
  · exact fun load hload => h.loads load (hloads₃ ▸ hload)
  · exact fun p hp => h.poller p (hpoller₃ ▸ hp)
  · have hp : c.workbench.poller = some p := hpoller₃ ▸ hp
    obtain ⟨hold, hnil⟩ := hrest p hp hs
    have hshows := hpages.2 p hp hold hnil hr
    rw [← hsame₃ hnil] at hshows
    exact hshows
  · have hp : c.workbench.poller = some p := hpoller₃ ▸ hp
    obtain ⟨hold, hnil⟩ := hrest p hp hs
    have hpnil : pages = [] := by
      by_contra hne
      obtain ⟨p', hp', -, hlive, -⟩ := hqueued.polled hne
      rw [hp] at hp'
      obtain rfl := Option.some.inj hp'
      rw [hr] at hlive
      cases hlive
    have hreplays := hqueued.replays p hp hold hnil hr hw
    rw [← hflag₁, ← hcache₁, ← hsame₂ hpnil, ← hsame₃ hnil] at hreplays
    exact hreplays
  · intro t ht
    rw [show ({ w₃ with selected := w₃.session } : Workbench).queue = [] from hqueue₃] at ht
    cases ht

/-- The window that earlier history is put in front of. -/
theorem Sound.awaited (h : c.Sound) {load : EarlierLoad} {r : HistoryPage}
    (hload : load ∈ c.workbench.earlierLoads) (ha : load.answer = some r)
    (hawaits : c.workbench.awaits load = true) :
    ∃ older stretch rows, PageOf r older stretch ∧
      older ++ stretch ++ rows <+: c.logs load.scope ∧ rows ≠ [] ∧
      Joined [] ((c.workbench.cache.get load.scope).1.getD load.cached) rows := by
  obtain ⟨rows, hjoined, hbefore, -, hanswer⟩ := h.loads load hload
  obtain ⟨older, stretch, hpart, hpage⟩ := hanswer r ha
  have hne : ∀ l : List Event, l.head?.map (·.seq) = some load.before → l ≠ [] := by
    rintro l hl rfl
    cases hl
  rw [HistoryCache.get_events]
  unfold Workbench.awaits at hawaits
  rcases hentry : c.workbench.cache.find load.scope with _ | entry
  · exact ⟨older, stretch, rows, hpage, hpart, hne rows hbefore, hjoined⟩
  · rw [hentry, decide_eq_true_eq] at hawaits
    obtain ⟨older', rows', events, hloads, hof⟩ := h.cache load.scope entry hentry
    rw [hof.before, beforeOf] at hawaits
    split_ifs at hawaits
    refine ⟨older, stretch, rows', hpage, ?_, hne rows' hawaits, ?_⟩
    · have hsame : older ++ stretch = older' :=
        (below_part (h.sorted load.scope) hpart hbefore).symm.trans
          (below_part (h.sorted load.scope) hloads.part hawaits)
      rw [hsame]
      exact hloads.part
    · rw [Option.map_some, Option.getD_some, hof.events]
      exact hloads.joined

/-- The window that earlier history is put in front of ends where the poll is. -/
theorem awaits_cursor {log : List Event} {w : Workbench} {load : EarlierLoad} {p : Poller}
    {events older rows : List Event} {flag : Bool} (hawaits : w.awaits load = true)
    (hselected : w.selected = some load.scope) (hp : w.poller = some p) (hscope : p.scope = load.scope)
    (hr : p.replaying = false) (hshows : ShowsPart log w.cache p events flag [] older rows) :
    p.cursor = newest ((w.cache.get load.scope).1.getD load.cached) := by
  rw [HistoryCache.get_events]
  unfold Workbench.awaits at hawaits
  rcases hentry : w.cache.find load.scope with _ | entry
  · rw [hentry] at hawaits
    simpa [hselected, hp, hscope, hr] using hawaits
  · rw [hshows.cursor, List.flatten_nil, List.append_nil, hshows.loads.newest_eq, Option.map_some,
      Option.getD_some, (hshows.entry entry (hscope ▸ hentry)).events]

/-- Earlier history comes. -/
theorem Sound.earlierLoaded (h : c.Sound) (scope : Scope)
    (ho : c.orderly estimate (.earlierLoaded scope) = true) :
    (c.step estimate (.earlierLoaded scope)).Sound := by
  unfold step
  dsimp only
  split
  swap
  · exact h
  rename_i load hfind
  split
  swap
  · exact h
  rename_i r ha
  obtain rfl : load.scope = scope := by simpa using List.find?_some hfind
  simp only [orderly, hfind, Option.all_some, ha, Option.isNone_some, Bool.false_or,
    Bool.and_eq_true, Bool.not_eq_true'] at ho
  obtain ⟨hwaits, hawaits⟩ := ho
  have hload := List.mem_of_find?_eq_some hfind
  obtain ⟨older, stretch, rows, hpage, hpart, hne, hjoined⟩ := h.awaited hload ha hawaits
  unfold Workbench.earlierHistory
  dsimp only
  split_ifs with hstuck hselected
  · exact h.endEarlier load.scope
  all_goals
    have hrows := hpage.shows_rows (fun hno => hstuck (by simp [hno.1, hno.2]))
    have hextend := hjoined.extend (h.sorted load.scope) hpart
    rw [← hpage.events] at hextend
    have hloads : Loads (c.logs load.scope) older (stretch ++ rows)
        (appendEvents r.events ((c.workbench.cache.get load.scope).1.getD load.cached)) :=
      ⟨by rwa [← List.append_assoc], hextend, fun hnil =>
        absurd (List.append_eq_nil_iff.1 hnil).2 hne⟩
    have hbefore : r.before = beforeOf older (stretch ++ rows) := by
      rw [beforeOf_append hrows, hpage.before]
    have hcache : ((c.workbench.cache.get load.scope).2.set estimate load.scope
        (appendEvents r.events ((c.workbench.cache.get load.scope).1.getD load.cached)) r.hasMore
        r.before).Sound c.logs := (h.touched load.scope).cache.set hloads hpage.hasMore hbefore
    obtain ⟨scope, front, pages, rest, hqueued⟩ := h.queued
    have hpages : c.workbench.session = some load.scope → pages = [] := by
      intro hs
      by_contra hnil
      obtain ⟨p, -, -, -, hs'⟩ := hqueued.polled hnil
      obtain rfl : scope = load.scope := by simpa [hs] using hs'.symm
      obtain ⟨page, more, rfl⟩ := List.exists_cons_of_ne_nil hnil
      rw [Workbench.appendsTo, List.any_eq_false] at hwaits
      exact hwaits (.append load.scope page) (by rw [hqueued.queue]; simp) (by simp)
  · have hs : c.workbench.session = some load.scope := by
      rcases h.selected with hsame | ⟨-, hnew⟩
      · exact hsame.symm.trans hselected
      · exact absurd rfl ((hnew load.scope hselected).2 load hload)
    obtain rfl := hpages hs
    refine ⟨h.sorted, h.positive, hcache, (h.endEarlier load.scope).loads, h.poller,
      hqueued.more (by simp [Update.plain]) rfl (fun p hp hps hrest hr => ?_)
        fun p hp hps hrest hr hw => ?_, ?_, ?_⟩
    · have hps' : c.workbench.session = some p.scope := hps
      have hscope : p.scope = load.scope := by simpa [hs] using hps'.symm
      obtain ⟨_, _, hshows⟩ := hqueued.shows p hp hps (.inr hrest) hr
      have hcursor := awaits_cursor hawaits hselected hp hscope hr hshows
      rw [hscope]
      refine ⟨older, stretch ++ rows, hloads, by simpa using hloads.part, ?_, hpage.hasMore,
        fun entry hentry => HistoryCache.set_of hpage.hasMore hbefore entry (hscope ▸ hentry)⟩
      rw [hcursor, hjoined.newest_eq, List.flatten_nil, List.append_nil, ← List.append_assoc,
        newest_append_of_ne hne]
    · -- nothing of a session that is read from its start on is in the cache
      have hps' : c.workbench.session = some p.scope := hps
      have hscope : p.scope = load.scope := by simpa [hs] using hps'.symm
      obtain ⟨-, hnone⟩ := hqueued.replays p hp hps hrest hr hw
      have hp : c.workbench.poller = some p := hp
      have hselected : c.workbench.selected = some load.scope := hselected
      rw [hscope] at hnone
      simp [Workbench.awaits, hnone, hselected, hp, hscope, hr, hw] at hawaits
    · exact (h.endEarlier load.scope).selected.imp_right fun hsel =>
        ⟨Workbench.selects_more hsel.1 rfl, hsel.2⟩
    · exact fun t ht => h.targets t (select_of_more (by simp [Update.selects]) ht)
  · -- the session is not shown, or another one is being opened
    have hother : ∀ p, c.workbench.poller = some p → c.workbench.session = some p.scope →
        (pages ≠ [] ∨ rest = []) → p.scope ≠ load.scope := by
      rintro p hp hps hor heq
      rw [heq] at hps
      have hrest := hor.resolve_left (fun hno => hno (hpages hps))
      have hpnil := hpages hps
      subst hrest hpnil
      rcases h.selected with hsame | ⟨hsel, -⟩
      · exact hselected (hsame.trans hps)
      · rw [Workbench.selects, hqueued.queue, List.any_eq_true] at hsel
        obtain ⟨u, hu, husel⟩ := hsel
        have hplain := hqueued.front_plain u (by simpa using hu)
        cases u with
        | events | hasEarlier => cases husel
        | append | select => cases hplain
    have hkept : ∀ other, other ≠ load.scope →
        ((c.workbench.cache.get load.scope).2.set estimate load.scope (appendEvents r.events
          ((c.workbench.cache.get load.scope).1.getD load.cached)) r.hasMore r.before).find other =
            none ∨
        ((c.workbench.cache.get load.scope).2.set estimate load.scope (appendEvents r.events
          ((c.workbench.cache.get load.scope).1.getD load.cached)) r.hasMore r.before).find other =
            c.workbench.cache.find other := by
      intro other hne
      rw [← HistoryCache.find_get c.workbench.cache load.scope other]
      exact HistoryCache.find_set_ne hne
    refine ⟨h.sorted, h.positive, hcache, (h.endEarlier load.scope).loads, h.poller,
      ⟨scope, front, pages, rest, hqueued.queue, hqueued.front_plain, hqueued.rest_appends,
        hqueued.rest_selects, hqueued.polled, fun p hp hps hor hr => ?_,
        fun p hp hps hrest hr hw => ?_⟩, (h.endEarlier load.scope).selected,
      h.targets⟩
    · obtain ⟨older', rows', hshows⟩ := hqueued.shows p hp hps hor hr
      refine ⟨older', rows', hshows.loads, hshows.polled, hshows.cursor, hshows.flag,
        fun entry hentry => hshows.entry entry ?_⟩
      rcases hkept p.scope (hother p hp hps hor) with hno | hsame
      · cases hno.symm.trans hentry
      · exact hsame.symm.trans hentry
    · obtain ⟨hflag, hnone⟩ := hqueued.replays p hp hps hrest hr hw
      refine ⟨hflag, ?_⟩
      rcases hkept p.scope (hother p hp hps (.inr hrest)) with hno | hsame
      · exact hno
      · exact hsame.trans hnone

/-- What one step of an orderly run keeps. -/
theorem Sound.step (h : c.Sound) (happening : Happening) (ho : c.orderly estimate happening = true) :
    (c.step estimate happening).Sound := by
  cases happening with
  | logged scope event => exact h.logged scope event
  | pollAnswered rows needsEarlier => exact h.pollAnswered rows needsEarlier
  | polled => exact h.polled ho
  | earlierAsked => exact h.earlierAsked
  | earlierAnswered scope rows needsEarlier => exact h.earlierAnswered scope rows needsEarlier
  | earlierLoaded scope => exact h.earlierLoaded scope ho
  | earlierFailed scope => exact h.endEarlier scope
  | opened scope crossing => exact h.opened scope crossing
  | left => exact h.unselected (.inr rfl)
  | closed => exact h.unselected (.inl rfl)
  | created scope => exact h.created scope
  | refreshed scope => exact h.refreshed scope ho
  | rendered => exact h.rendered ho
  | effectRan windowed => exact h.effectRan windowed

/-- Nothing has been said and nothing is shown. -/
def start : Conversations := { logs := fun _ => [] }

theorem sound_start : start.Sound := by
  refine ⟨fun _ => .nil, fun _ e he => absurd he List.not_mem_nil, (fun _ entry h => by cases h),
    fun load h => absurd h List.not_mem_nil, (fun p hp => by cases hp), ?_, .inl rfl,
    fun t ht => absurd ht List.not_mem_nil⟩
  exact ⟨default, [], [], [], rfl, by simp, by simp, by simp, by simp, (fun p hp => by cases hp),
    fun p hp => by cases hp⟩

/-- What is loaded of the session that is polled: what is shown, or what was collected of it while
it is still being read for the first time. `older` and `newer` are what is left of its log. -/
structure Loaded (c : Conversations) (p : Poller) (older rows newer : List Event) : Prop where
  log : c.logs p.scope = older ++ rows ++ newer
  joined : Joined [] (if p.replaying then p.replay else c.workbench.events) rows
  cursor : p.initialWindow = false → p.cursor = newest rows
  start : p.initialWindow = false → rows = [] → older = []
  hasEarlier : p.replaying = false → c.workbench.hasEarlierHistory = !older.isEmpty
  cached : p.replaying = false →
    ∀ entry, c.workbench.cache.find p.scope = some entry → entry.Of older rows c.workbench.events

/-- Nothing of a log is lost between what was loaded first and where the poll is. -/
structure Complete (c : Conversations) : Prop where
  loaded : c.workbench.queue = [] → ∀ p, c.workbench.poller = some p →
    c.workbench.session = some p.scope → ∃ older rows newer, c.Loaded p older rows newer
  cached : c.workbench.cache.Sound c.logs

theorem Sound.complete (h : c.Sound) : c.Complete := by
  refine ⟨fun hqueue p hp hs => ?_, h.cache⟩
  have hreads := h.poller p hp
  rcases hr : p.replaying with _ | _
  · obtain ⟨scope, front, pages, rest, hqueued⟩ := h.queued
    have hnil := hqueued.queue.symm.trans hqueue
    rw [List.append_eq_nil_iff, List.append_eq_nil_iff, List.map_eq_nil_iff] at hnil
    obtain ⟨⟨rfl, rfl⟩, rfl⟩ := hnil
    obtain ⟨older, rows, hshows⟩ := hqueued.shows p hp hs (.inr rfl) hr
    obtain ⟨newer, hnewer⟩ := hshows.loads.part
    refine ⟨older, rows, newer, hnewer.symm, by rw [hr]; exact hshows.loads.joined, fun _ => ?_,
      fun _ => hshows.loads.start, fun _ => hshows.flag, fun _ => hshows.entry⟩
    rw [hshows.cursor, List.flatten_nil, List.append_nil, newest_append hshows.loads.start]
  · rcases hw : p.initialWindow with _ | _
    · obtain ⟨⟨newer, hnewer⟩, hcursor⟩ := hreads.full hr hw
      refine ⟨[], p.replay, newer, by simpa using hnewer.symm, by simpa [hr] using .refl p.replay,
        fun _ => hcursor, fun _ _ => rfl, ?_, ?_⟩ <;> simp [hr]
    · obtain ⟨rows, hjoined, -, ⟨older, newer, hnewer⟩, -⟩ := hreads.window hr hw
      refine ⟨older, rows, newer, hnewer.symm, by simpa [hr] using hjoined, ?_, ?_, ?_, ?_⟩ <;>
        simp [hr, hw]

/-- A run whose steps are orderly loses nothing. -/
theorem loaded_log (estimate : List Event → ℕ) (happenings : List Happening)
    (ho : Runs.Throughout (step estimate) (fun c h => c.orderly estimate h = true) start happenings) :
    (Runs.run (step estimate) start happenings).Complete := by
  have hsound : (Runs.run (step estimate) start happenings).Sound :=
    Runs.throughout_keeps (fun _ h hs ho => hs.step h ho) sound_start ho
  exact hsound.complete

def talk : Scope := ⟨"local", "talk"⟩

def line (seq : ℕ) : Happening :=
  .logged talk { seq, sessionId := "talk", atMs := seq, event := .notice "" }

/-- Two of three rows are shown. While the first one is asked for a fourth one is polled, and
waits. -/
def asked : List Happening :=
  [line 1, line 2, line 3, .opened talk false, .rendered, .effectRan true, .rendered,
    .pollAnswered 2 false, .polled, .rendered, line 4, .earlierAsked, .earlierAnswered talk 1 false,
    .pollAnswered 1 false, .polled]

/-- The earlier history is put in front of the window without the fourth row, and shown last. -/
theorem loaded_log_lost :
    ¬(Runs.run (step List.length) start (asked ++ [.earlierLoaded talk, .rendered])).Complete := by
  intro h
  generalize hc : Runs.run (step List.length) start (asked ++ [.earlierLoaded talk, .rendered]) = c at h
  have hp : (c.workbench.poller.map fun p => (p.scope, p.cursor, p.replaying, p.initialWindow)) =
      some (talk, 4, false, false) := by
    rw [← hc]
    decide +kernel
  have hsession : c.workbench.session = some talk := by rw [← hc]; decide +kernel
  have hqueue : c.workbench.queue.length = 0 := by rw [← hc]; decide +kernel
  have hshown : newest c.workbench.events = 3 := by rw [← hc]; decide +kernel
  obtain ⟨p, hpoller, hp⟩ := Option.map_eq_some_iff.1 hp
  simp only [Prod.mk.injEq] at hp
  obtain ⟨older, rows, newer, hl⟩ :=
    h.loaded (List.length_eq_zero_iff.1 hqueue) p hpoller (by rw [hp.1, hsession])
  have hcursor := hl.cursor hp.2.2.2
  have hjoined := hl.joined
  rw [hp.2.2.1] at hjoined
  have := hjoined.newest_eq
  simp only [Bool.false_eq_true, if_false] at this
  omega

theorem loaded_log_talk :
    (Runs.run (step List.length) start (asked ++ [.rendered, .earlierLoaded talk, .rendered])).Complete :=
  loaded_log List.length _ (by decide +kernel)

end Conversations

end LatteWork
