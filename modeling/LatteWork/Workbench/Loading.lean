import LatteWork.Proofs.HistoryPages
import LatteWork.Workbench.HistoryCache
import LatteWork.Workbench.Transcript

/-!
# Loading a conversation

Two loaders write the events that are shown: the poll of the session that is open, and the request
for earlier history. What they set waits in a queue until React renders; the cache they write at
once, except for what the poll appends, which it writes when it is applied. Answers come when they
come, and the log grows meanwhile.
-/

namespace LatteWork

/-- What waits for the next rendering: `setEvents` with a value, and with the function that appends
a page of the poll, `setHasEarlierHistory`, and `setSessionId`. -/
inductive Update where
  | events (events : List Event)
  | append (scope : Scope) (page : List Event)
  | hasEarlier (flag : Bool)
  | select (session : Option Scope)
  deriving Inhabited

inductive PollAnswer where
  | history (page : HistoryPage)
  | events (events : List Event) (hasMore : Bool)
  deriving Inhabited

/-- The variables of the effect that polls a session, and the answer that came to its request. -/
structure Poller where
  scope : Scope
  cursor : ℕ
  replaying : Bool
  replay : List Event := []
  initialWindow : Bool
  before : Option ℕ := none
  answer : Option PollAnswer := none
  deriving Inhabited

/-- A call of `loadEarlierHistory`, and the answer that came to its request. -/
structure EarlierLoad where
  scope : Scope
  cached : List Event
  before : ℕ
  answer : Option HistoryPage := none
  deriving Inhabited

/-- The part of `useWorkbench` that loads events. `session` is the session of the last rendering,
`selected` the one the refs name. -/
structure Workbench where
  events : List Event := []
  hasEarlierHistory : Bool := false
  session : Option Scope := none
  selected : Option Scope := none
  queue : List Update := []
  poller : Option Poller := none
  earlierLoads : List EarlierLoad := []
  cache : HistoryCache := {}
  deriving Inhabited

/-- `events.at(-1)?.seq ?? 0`. -/
def newest (events : List Event) : ℕ := (events.getLast?.map (·.seq)).getD 0

namespace Workbench

-- the size of events, as the cache estimates it
variable (estimate : List Event → ℕ)

def apply (w : Workbench) : Update → Workbench
  | .events events => { w with events }
  | .append scope page =>
    let updated := appendEvents w.events page
    { w with
      events := updated
      cache := w.cache.set estimate scope updated (w.cache.hasEarlier scope) (w.cache.before scope) }
  | .hasEarlier hasEarlierHistory => { w with hasEarlierHistory }
  | .select session => { w with session }

/-- The effect of the last rendering has run. -/
def settled (w : Workbench) : Bool := w.poller.map (·.scope) = w.session

/-- React runs the effect of a rendering before the next one. -/
def render (w : Workbench) : Workbench :=
  if w.settled then
    let w := w.queue.foldl (apply estimate) { w with queue := [] }
    { w with selected := w.session }
  else w

/-- The effect that polls the session: the old one is disposed of, and its request with it. -/
def pollEffect (w : Workbench) (windowed : Bool) : Workbench :=
  if w.settled then w
  else
    match w.session with
    | none => { w with poller := none }
    | some scope =>
      let (cached, cache) := w.cache.get scope
      { w with
        cache
        poller := some
          { scope
            cursor := newest (cached.getD [])
            replaying := cached.isNone
            initialWindow := cached.isNone && windowed }
        queue := w.queue ++ [.events (cached.getD []), .hasEarlier (w.cache.hasEarlier scope)] }

/-- `poll`, from its answer on. -/
def poll (w : Workbench) (p : Poller) : PollAnswer → Workbench
  | .history r =>
    let next := r.before
    if r.hasMore && (next.all fun n => p.before.any (· ≤ n)) then
      { w with poller := some { p with answer := none } } -- 对话分页未前进，请重试
    else
      let before := next.or p.before
      let replay := appendEvents r.events p.replay
      if r.needsEarlier && r.hasMore then
        { w with poller := some { p with before, replay, answer := none } }
      else
        { w with
          poller := some
            { p with
              cursor := newest replay
              before
              replay := []
              initialWindow := false
              replaying := false
              answer := none }
          cache := w.cache.set estimate p.scope replay r.hasMore r.before
          queue := w.queue ++ [.events replay, .hasEarlier r.hasMore] }
  | .events events hasMore =>
    let cursor := if events.isEmpty then p.cursor else newest events
    let p := { p with cursor, answer := none }
    if p.replaying then
      let replay := appendEvents p.replay events
      if hasMore then { w with poller := some { p with replay } }
      else
        { w with
          poller := some { p with replay := [], replaying := false }
          queue := w.queue ++ [.events replay]
          cache := w.cache.set estimate p.scope replay false none }
    else if events.isEmpty then { w with poller := some p }
    else { w with poller := some p, queue := w.queue ++ [.append p.scope events] }

/-- `openSession`, which leaves the project first when the session is in another one. -/
def openSession (w : Workbench) (target : Scope) (crossing : Bool) : Workbench :=
  if w.session = some target then w
  else
    let (cached, cache) := w.cache.get target
    { w with
      cache
      queue := w.queue ++ ((if crossing then [.select none, .events []] else []) ++
        [.hasEarlier (w.cache.hasEarlier target), .events (cached.getD []), .select (some target)]) }

/-- `createSession` and `selectTaskProject`, which leave the session. -/
def createSession (w : Workbench) : Workbench :=
  { w with selected := none, queue := w.queue ++ [.select none, .events []] }

/-- `selectProject`, and `sessionAction` where it closes the session. -/
def selectProject (w : Workbench) : Workbench :=
  { w with queue := w.queue ++ [.select none, .events []] }

/-- `persistSession`, which shows the session it has made. -/
def persistSession (w : Workbench) (created : Scope) : Workbench :=
  if w.session = some created || w.earlierLoads.any (·.scope = created) then w
  else
    { w with
      selected := some created
      queue := w.queue ++ [.select (some created), .events []] }

/-- `sessionAfterRefresh` where it opens what was requested. -/
def sessionAfterRefresh (w : Workbench) (requested : Scope) : Workbench :=
  if (w.queue.foldl (apply estimate) w).session = some requested then w
  else { w with queue := w.queue ++ [.select (some requested)] }

/-- `loadEarlierHistory`, up to its request. -/
def loadEarlierHistory (w : Workbench) : Workbench :=
  match w.session with
  | none => w
  | some scope =>
    let (cached, cache) := w.cache.get scope
    let w := { w with cache }
    match cached, cache.before scope with
    | some cached, some before =>
      if before = 0 || !cache.hasEarlier scope || w.earlierLoads.any (·.scope = scope) then w
      else { w with earlierLoads := w.earlierLoads ++ [{ scope, cached, before }] }
    | _, _ => w

/-- A call of `loadEarlierHistory` is over. -/
def endEarlier (w : Workbench) (scope : Scope) : Workbench :=
  { w with earlierLoads := w.earlierLoads.filter (·.scope ≠ scope) }

/-- `loadEarlierHistory`, from its answer on. -/
def earlierHistory (w : Workbench) (load : EarlierLoad) (r : HistoryPage) : Workbench :=
  let w := w.endEarlier load.scope
  if r.hasMore && (r.events.isEmpty || r.before.all (load.before ≤ ·)) then
    w -- 对话分页未前进，请重试
  else
    let (cached, cache) := w.cache.get load.scope
    let updated := appendEvents r.events (cached.getD load.cached)
    let w := { w with cache := cache.set estimate load.scope updated r.hasMore r.before }
    if w.selected = some load.scope then
      { w with queue := w.queue ++ [.events updated, .hasEarlier r.hasMore] }
    else w

end Workbench

/-- A page of `history` with `n` rows: the newest below a cursor, their texts joined. -/
def historyPage (log : List Event) (before : Option ℕ) (n : ℕ) (needsEarlier : Bool) :
    HistoryPage :=
  let left := Paging.below Event.seq log before
  let rest := left.take (left.length - n)
  let stretch := left.drop (left.length - n)
  { events := coalesce stretch
    hasMore := !rest.isEmpty
    needsEarlier
    before := if rest.isEmpty then none else stretch.head?.map (·.seq) }

/-- A page of `poll` with `n` rows: the oldest above a cursor. -/
def pollPage (log : List Event) (after n : ℕ) : PollAnswer :=
  let left := Paging.above Event.seq log after
  .events (left.take n) (n < left.length)

/-- The logs the hosts keep, and the client. -/
structure Conversations where
  logs : Scope → List Event
  workbench : Workbench := {}

/-- What may happen. An answer comes with as many rows as the host puts on it. -/
inductive Happening where
  | logged (scope : Scope) (event : Event)
  | pollAnswered (rows : ℕ) (needsEarlier : Bool)
  | polled
  | earlierAsked
  | earlierAnswered (scope : Scope) (rows : ℕ) (needsEarlier : Bool)
  | earlierLoaded (scope : Scope)
  | earlierFailed (scope : Scope)
  | opened (scope : Scope) (crossing : Bool)
  | left
  | closed
  | created (scope : Scope)
  | refreshed (scope : Scope)
  | rendered
  | effectRan (windowed : Bool)
  deriving Inhabited

namespace Conversations

variable (estimate : List Event → ℕ)

/-- The host answers the poll. -/
def answerPoll (c : Conversations) (p : Poller) (rows : ℕ) (needsEarlier : Bool) : PollAnswer :=
  if p.initialWindow then .history (historyPage (c.logs p.scope) p.before rows needsEarlier)
  else pollPage (c.logs p.scope) p.cursor rows

def step (c : Conversations) : Happening → Conversations
  | .logged scope event =>
    if (c.logs scope).all (·.seq < event.seq) && decide (0 < event.seq) then
      { c with logs := Function.update c.logs scope (c.logs scope ++ [event]) }
    else c
  | .pollAnswered rows needsEarlier =>
    match c.workbench.poller with
    | some p =>
      if p.answer.isNone then
        let p := { p with answer := some (c.answerPoll p rows needsEarlier) }
        { c with workbench.poller := some p }
      else c
    | none => c
  | .polled =>
    match c.workbench.poller with
    | some p =>
      match p.answer with
      | some r => { c with workbench := c.workbench.poll estimate p r }
      | none => c
    | none => c
  | .earlierAsked => { c with workbench := c.workbench.loadEarlierHistory }
  | .earlierAnswered scope rows needsEarlier =>
    { c with workbench.earlierLoads := c.workbench.earlierLoads.map fun load =>
        if load.scope = scope && load.answer.isNone then
          let page := historyPage (c.logs scope) (some load.before) rows needsEarlier
          { load with answer := some page }
        else load }
  | .earlierLoaded scope =>
    match c.workbench.earlierLoads.find? (·.scope = scope) with
    | some load =>
      match load.answer with
      | some r => { c with workbench := c.workbench.earlierHistory estimate load r }
      | none => c
    | none => c
  | .earlierFailed scope => { c with workbench := c.workbench.endEarlier scope }
  | .opened scope crossing => { c with workbench := c.workbench.openSession scope crossing }
  | .left => { c with workbench := c.workbench.createSession }
  | .closed => { c with workbench := c.workbench.selectProject }
  | .created scope => { c with workbench := c.workbench.persistSession scope }
  | .refreshed scope => { c with workbench := c.workbench.sessionAfterRefresh estimate scope }
  | .rendered => { c with workbench := c.workbench.render estimate }
  | .effectRan windowed => { c with workbench := c.workbench.pollEffect windowed }

end Conversations

end LatteWork
