import LatteWork.Lib.Assoc
import LatteWork.Lib.Rotation
import LatteWork.Wire.Protocol

/-!
# Refreshing titles

Which sessions' titles are read again when a list of sessions is asked for: a few of them, those
that were read longest ago, and none that was read just before.
-/

namespace LatteWork

open Assoc

/-- `TitleRefreshCache`: the native identity that was read for a session, and when. -/
structure TitleRefreshCache where
  reads : List (String × String × ℕ) := []
  nodup : (reads.map (·.1)).Nodup

namespace TitleRefreshCache

/-- Times are in milliseconds. -/
def interval : ℕ := 2000

def limit : ℕ := 2048

variable (c : TitleRefreshCache)

/-- When a session's identity was read. -/
def lastRead (session : Session) : Option ℕ :=
  ((c.reads.lookup session.id).filter fun r => some r.1 = session.nativeId).map (·.2)

def retain (now : ℕ) : TitleRefreshCache where
  reads := c.reads.filter fun e => now - e.2.2 < interval
  nodup := c.nodup.sublist (List.filter_sublist.map _)

def insert (id native : String) (now : ℕ) : TitleRefreshCache :=
  ⟨put id (native, now) c.reads, nodup_put c.nodup⟩

def claim (session : Session) (now : ℕ) : Bool × TitleRefreshCache :=
  match session.nativeId with
  | none => (false, c)
  | some native =>
    if (c.reads.lookup session.id).any fun r => r.1 = native ∧ now - r.2 < interval then (false, c)
    else
      let c := if limit ≤ c.reads.length then c.retain now else c
      if limit ≤ c.reads.length then (false, c) else (true, c.insert session.id native now)

/-- `filter` and `take`: the sessions are claimed one after the other, until there are enough. -/
def claimFirst (now : ℕ) : ℕ → List Session → TitleRefreshCache → List Session × TitleRefreshCache
  | 0, _, c => ([], c)
  | _, [], c => ([], c)
  | n + 1, session :: rest, c =>
    match c.claim session now with
    | (true, c) =>
      let (claimed, c) := claimFirst now n rest c
      (session :: claimed, c)
    | (false, c) => claimFirst now (n + 1) rest c

def select (sessions : List Session) (now : ℕ) : List Session × TitleRefreshCache :=
  claimFirst now 16
    (sessions.mergeSort fun a b => Rotation.earlier (c.lastRead a) (c.lastRead b)) c

/-- A call of `select`. -/
structure Call where
  now : ℕ
  sessions : List Session

/-- Calls, one after the other: what each claims, and what is in the cache in the end. -/
def run : TitleRefreshCache → List Call → List (ℕ × List Session) × TitleRefreshCache
  | c, [] => ([], c)
  | c, call :: rest =>
    let (claimed, c) := c.select call.sessions call.now
    let (log, c) := run c rest
    ((call.now, claimed) :: log, c)

end TitleRefreshCache

end LatteWork
