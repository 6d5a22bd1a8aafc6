import LatteWork.Lib.Assoc
import LatteWork.Wire.Protocol

/-!
# The history cache

The client keeps the windows of the conversations it showed last, within a number of conversations
and a size.
-/

namespace LatteWork

/-- `JSON.stringify([hostId, sessionId])`. -/
structure Scope where
  hostId : String
  sessionId : String
  deriving DecidableEq, Repr, Inhabited

/-- The window of a conversation: its events, and whether and from where on there are earlier
ones. -/
structure CacheEntry where
  events : List Event
  size : ℕ
  hasEarlier : Bool
  before : Option ℕ
  deriving Inhabited

/-- `HistoryCache`. The entry that was used last is first. -/
structure HistoryCache where
  entries : List (Scope × CacheEntry) := []
  size : ℕ := 0
  maxEntries : ℕ := 12
  maxSize : ℕ := 64 * 1024 * 1024
  deriving Inhabited

namespace HistoryCache

def find (c : HistoryCache) (scope : Scope) : Option CacheEntry := c.entries.lookup scope

def get (c : HistoryCache) (scope : Scope) : Option (List Event) × HistoryCache :=
  match c.find scope with
  | none => (none, c)
  | some entry =>
    (some entry.events, { c with entries := (scope, entry) :: Assoc.drop scope c.entries })

def hasEarlier (c : HistoryCache) (scope : Scope) : Bool := (c.find scope).any (·.hasEarlier)

def before (c : HistoryCache) (scope : Scope) : Option ℕ := (c.find scope).bind (·.before)

/-- The loop of `set`, which runs at most once for each entry. -/
def evict : ℕ → HistoryCache → HistoryCache
  | 0, c => c
  | fuel + 1, c =>
    if c.maxEntries < c.entries.length || c.maxSize < c.size then
      evict fuel { c with
        size := c.size - (c.entries.getLast?.map (·.2.size)).getD 0
        entries := c.entries.dropLast }
    else c

/-- `set`. The size of events is estimated from their text, `JSON.stringify(events).length * 2`. No
caller puts the very array back that is there. -/
def set (estimate : List Event → ℕ) (c : HistoryCache) (scope : Scope) (events : List Event)
    (hasEarlier : Bool) (before : Option ℕ) : HistoryCache :=
  let c := { c with
    size := c.size - ((c.find scope).map (·.size)).getD 0
    entries := Assoc.drop scope c.entries }
  let size := estimate events
  if c.maxSize < size then c
  else
    let c := { c with
      entries := (scope, { events, size, hasEarlier, before }) :: c.entries
      size := c.size + size }
    c.evict c.entries.length

variable {estimate : List Event → ℕ} {c : HistoryCache} {scope other : Scope}

theorem find_cons (entry : CacheEntry) (l : List (Scope × CacheEntry)) :
    ((scope, entry) :: Assoc.drop scope l).lookup other =
      if other = scope then some entry else l.lookup other := by
  rw [List.lookup_cons, Assoc.lookup_drop]
  by_cases h : other = scope
  · simp [h]
  · rw [beq_eq_false_iff_ne.2 h, if_neg h, if_neg h]

theorem get_events (c : HistoryCache) (scope : Scope) :
    (c.get scope).1 = (c.find scope).map (·.events) := by
  unfold get
  split <;> rename_i h <;> rw [h] <;> rfl

/-- Reading an entry changes none. -/
@[simp]
theorem find_get (c : HistoryCache) (scope other : Scope) :
    (c.get scope).2.find other = c.find other := by
  unfold get
  split
  · rfl
  · rename_i entry h
    rw [find, find_cons]
    split_ifs with heq
    · rw [heq, h]
    · rfl

/-- What is still there after the loop is as it was. -/
theorem find_evict : ∀ (fuel : ℕ) (c : HistoryCache),
    (c.evict fuel).find other = none ∨ (c.evict fuel).find other = c.find other
  | 0, _ => .inr rfl
  | fuel + 1, c => by
    unfold evict
    split_ifs
    · rcases find_evict fuel { c with
        size := c.size - (c.entries.getLast?.map (·.2.size)).getD 0
        entries := c.entries.dropLast } with h | h
      · exact .inl h
      · rw [h]
        rcases List.eq_nil_or_concat c.entries with hnil | ⟨front, last, hl⟩
        · refine .inr ?_
          rw [find, find, hnil, List.dropLast_nil]
        · simp only [find, hl, List.concat_eq_append, List.dropLast_concat, Assoc.lookup_append]
          rcases front.lookup other with _ | entry
          · exact .inl rfl
          · exact .inr rfl
    · exact .inr rfl

/-- What `set` makes of its own entry, if it keeps it. -/
theorem find_set_self {events : List Event} {hasEarlier : Bool} {before : Option ℕ} :
    (c.set estimate scope events hasEarlier before).find scope = none ∨
      ∃ entry, (c.set estimate scope events hasEarlier before).find scope = some entry ∧
        entry.events = events ∧ entry.hasEarlier = hasEarlier ∧ entry.before = before := by
  unfold set
  dsimp only
  split_ifs
  · exact .inl (Assoc.lookup_drop.trans (if_pos rfl))
  · refine (find_evict _ _).imp_right fun h => ?_
    rw [h, find, find_cons, if_pos rfl]
    exact ⟨_, rfl, rfl, rfl, rfl⟩

/-- What `set` makes of other entries. -/
theorem find_set_ne {events : List Event} {hasEarlier : Bool} {before : Option ℕ}
    (h : other ≠ scope) :
    (c.set estimate scope events hasEarlier before).find other = none ∨
      (c.set estimate scope events hasEarlier before).find other = c.find other := by
  unfold set
  dsimp only
  split_ifs
  · exact .inr (Assoc.lookup_drop.trans (if_neg h))
  · refine (find_evict _ _).imp_right fun hev => ?_
    rw [hev, find, find_cons, if_neg h]
    rfl

/-- Events that are too large are not kept. -/
theorem find_set_large {events : List Event} {hasEarlier : Bool} {before : Option ℕ}
    (h : c.maxSize < estimate events) :
    (c.set estimate scope events hasEarlier before).find scope = none := by
  unfold set
  dsimp only
  rw [if_pos h]
  exact Assoc.lookup_drop.trans (if_pos rfl)

end HistoryCache

end LatteWork
