import LatteWork.Lib.Keyset
import LatteWork.Proofs.Quiet
import LatteWork.Store.Marks
import Mathlib.Data.Prod.Lex
import Mathlib.Data.String.Basic

/-!
# Recent conversations in pages

A cursor is the time and the id of the last conversation of a page. Ids are distinct, so cursors
order the conversations strictly, those of one time included, and following them lists each once.
-/

namespace LatteWork

open Fallible Table

namespace RecentCursor

/-- By time, and by id at one time. -/
def place (c : RecentCursor) : ℕ ×ₗ String := toLex (c.updatedAt, c.id)

theorem place_injective : Function.Injective place := by
  rintro ⟨a, b⟩ ⟨c, d⟩ h
  simpa [place] using h

instance : LinearOrder RecentCursor := LinearOrder.lift' place place_injective

theorem lt_iff {c d : RecentCursor} :
    c < d ↔ c.updatedAt < d.updatedAt ∨ c.updatedAt = d.updatedAt ∧ c.id < d.id :=
  Prod.Lex.toLex_lt_toLex

theorem le_iff {c d : RecentCursor} :
    c ≤ d ↔ c.updatedAt < d.updatedAt ∨ c.updatedAt = d.updatedAt ∧ c.id ≤ d.id :=
  Prod.Lex.toLex_le_toLex

end RecentCursor

namespace RecentSession

/-- The cursor behind a conversation. -/
def cursor (row : RecentSession) : RecentCursor := { updatedAt := row.updatedAt, id := row.session.id }

theorem before_iff {a b : RecentSession} : a.before b ↔ b.cursor ≤ a.cursor := by
  rw [RecentCursor.le_iff]
  rfl

theorem behind_iff {c : RecentCursor} {row : RecentSession} :
    behind (some c) row = true ↔ row.cursor < c := by
  simp [behind, RecentCursor.lt_iff, cursor]

instance : IsTrans RecentSession before where
  trans _ _ _ hab hbc := before_iff.2 ((before_iff.1 hbc).trans (before_iff.1 hab))

instance : Std.Total before where
  total a b := by
    rw [before_iff, before_iff]
    exact le_total _ _

end RecentSession

namespace ProjectStore

variable {s : ProjectStore}

theorem recent_ids (s : ProjectStore) : s.recent.map (·.session) =
    s.store.sessions.filter fun x => !x.archived && !s.hiddenProjects.contains x.projectId := by
  simp [recent, Function.comp_def]

/-- Conversations with one id are one. -/
theorem recent_eq (hk : s.store.SessionsKeyed) {a b : RecentSession} (ha : a ∈ s.recent)
    (hb : b ∈ s.recent) (h : a.session.id = b.session.id) : a = b := by
  simp only [recent, List.mem_map, List.mem_filter] at ha hb
  obtain ⟨x, ⟨hx, -⟩, rfl⟩ := ha
  obtain ⟨y, ⟨hy, -⟩, rfl⟩ := hb
  obtain rfl : x = y := Keyed.eq hk hx hy h
  rfl

/-- Every conversation, the most recent first. -/
def newestFirst (s : ProjectStore) : List RecentSession := s.recent.insertionSort RecentSession.before

theorem newestFirst_perm (s : ProjectStore) : s.newestFirst.Perm s.recent := List.perm_insertionSort _ _

theorem newestFirst_descending (hk : s.store.SessionsKeyed) :
    Keyset.Descending RecentSession.cursor s.newestFirst := by
  have hnodup : s.newestFirst.Nodup := by
    refine (s.newestFirst_perm.nodup_iff).2 (List.Nodup.of_map (·.session) ?_)
    rw [recent_ids]
    exact (List.Nodup.of_map _ hk).filter _
  refine (List.pairwise_insertionSort _ _ |>.and hnodup).imp_of_mem fun {a b} ha hb ⟨hab, hne⟩ => ?_
  refine lt_of_le_of_ne (RecentSession.before_iff.1 hab) fun heq => hne ?_
  exact recent_eq hk (s.newestFirst_perm.subset ha) (s.newestFirst_perm.subset hb)
    (congrArg RecentCursor.id heq).symm

theorem before_antisymm (hk : s.store.SessionsKeyed) {a b : RecentSession} (ha : a ∈ s.recent)
    (hb : b ∈ s.recent) (hab : a.before b) (hba : b.before a) : a = b := by
  have heq := le_antisymm (RecentSession.before_iff.1 hba) (RecentSession.before_iff.1 hab)
  exact recent_eq hk ha hb (congrArg RecentCursor.id heq)

/-- What a query sorts is a part of the list. -/
theorem sorted_behind (hk : s.store.SessionsKeyed) (before : Option RecentCursor) :
    (s.recent.filter (RecentSession.behind before)).insertionSort RecentSession.before =
      Keyset.below RecentSession.cursor s.newestFirst before := by
  have hbelow : Keyset.below RecentSession.cursor s.newestFirst before =
      s.newestFirst.filter (RecentSession.behind before) := by
    cases before with
    | none => exact (List.filter_eq_self.2 fun _ _ => rfl).symm
    | some c =>
      refine List.filter_congr fun row _ => ?_
      rw [Bool.eq_iff_iff, decide_eq_true_eq, RecentSession.behind_iff]
  rw [hbelow]
  have hsort := List.perm_insertionSort RecentSession.before
    (s.recent.filter (RecentSession.behind before))
  have hmem : ∀ row ∈ (s.recent.filter (RecentSession.behind before)).insertionSort
      RecentSession.before, row ∈ s.recent := fun row hrow =>
    (List.mem_filter.1 (hsort.subset hrow)).1
  have hmem' : ∀ row ∈ s.newestFirst.filter (RecentSession.behind before), row ∈ s.recent :=
    fun row hrow => s.newestFirst_perm.subset (List.mem_filter.1 hrow).1
  exact List.Perm.eq_of_pairwise
    (fun a b ha hb hab hba => before_antisymm hk (hmem a ha) (hmem' b hb) hab hba)
    (List.pairwise_insertionSort _ _) ((List.pairwise_insertionSort _ _).filter _)
    (hsort.trans (s.newestFirst_perm.symm.filter _))

/-- An id that the database gives out, and a cursor that names one. -/
def ValidId (id : String) : Prop := id ≠ "" ∧ id.utf8ByteSize ≤ 128

instance : DecidablePred ValidId := fun _ => inferInstanceAs (Decidable (_ ∧ _))

/-- A query is a page of the list. -/
theorem recentSessions_page (hk : s.store.SessionsKeyed) {before : Option RecentCursor}
    (hvalid : ∀ c ∈ before, ValidId c.id) :
    s.recentSessions before = .ok (Keyset.page RecentSession.cursor 100 s.newestFirst before) := by
  have hpass : ¬∃ c ∈ before, c.id = "" ∨ 128 < c.id.utf8ByteSize := by
    rintro ⟨c, hc, hbad⟩
    obtain ⟨hne, hlen⟩ := hvalid c hc
    rcases hbad with hbad | hbad
    · exact hne hbad
    · omega
  rw [recentSessions, bailIf_pass hpass, sorted_behind hk]
  simp only [Keyset.page, List.take_take, List.length_take]
  congr 1
  by_cases hmore : 100 < (Keyset.below RecentSession.cursor s.newestFirst before).length
  · have h101 : 100 < min 101 (Keyset.below RecentSession.cursor s.newestFirst before).length := by omega
    rw [if_pos hmore, if_pos h101]
    rfl
  · have h101 : ¬100 < min 101 (Keyset.below RecentSession.cursor s.newestFirst before).length := by omega
    rw [if_neg hmore, if_neg h101, List.take_of_length_le (by omega)]

/-- The time of a conversation: of its newest activity, or of its creation. -/
def Dated (s : ProjectStore) (row : RecentSession) : Prop :=
  (∃ e ∈ s.store.events, e.sessionId = row.session.id ∧ e.event.kind ∈ activityKinds ∧
    (∀ e' ∈ s.store.events, e'.sessionId = row.session.id → e'.event.kind ∈ activityKinds →
      e'.seq ≤ e.seq) ∧ row.updatedAt = e.atMs) ∨
  ((∀ e ∈ s.store.events, e.sessionId = row.session.id → e.event.kind ∉ activityKinds) ∧
    row.updatedAt = row.session.createdAt)

/-- The first of a list sorted by row number is the newest. -/
theorem head?_newest (rows : List EventRow) :
    (rows = [] ∧ (rows.insertionSort fun a b => b.seq ≤ a.seq).head? = none) ∨
      ∃ e ∈ rows, (∀ e' ∈ rows, e'.seq ≤ e.seq) ∧
        (rows.insertionSort fun a b => b.seq ≤ a.seq).head? = some e := by
  have : IsTrans EventRow fun a b => b.seq ≤ a.seq := ⟨fun _ _ _ hab hbc => hbc.trans hab⟩
  have : Std.Total fun a b : EventRow => b.seq ≤ a.seq := ⟨fun a b => le_total b.seq a.seq⟩
  have hsort := List.pairwise_insertionSort (fun a b : EventRow => b.seq ≤ a.seq) rows
  have hperm := List.perm_insertionSort (fun a b : EventRow => b.seq ≤ a.seq) rows
  rcases hl : rows.insertionSort fun a b => b.seq ≤ a.seq with _ | ⟨e, rest⟩
  · rw [hl] at hperm
    exact .inl ⟨hperm.symm.eq_nil, by rw [hl]; rfl⟩
  · rw [hl] at hsort hperm
    refine .inr ⟨e, hperm.subset List.mem_cons_self, fun e' he' => ?_, by rw [hl]; rfl⟩
    rcases List.mem_cons.1 (hperm.symm.subset he') with rfl | he'
    · exact le_rfl
    · exact (List.pairwise_cons.1 hsort).1 e' he'

theorem recent_dated {row : RecentSession} (h : row ∈ s.recent) : s.Dated row := by
  simp only [recent, List.mem_map] at h
  obtain ⟨x, -, rfl⟩ := h
  have hmem : ∀ e, e ∈ s.store.events.filter (fun e =>
      e.sessionId = x.id && activityKinds.contains e.event.kind) ↔
      e ∈ s.store.events ∧ e.sessionId = x.id ∧ e.event.kind ∈ activityKinds := by
    simp [List.mem_filter]
  rcases head?_newest (s.store.events.filter fun e =>
      e.sessionId = x.id && activityKinds.contains e.event.kind) with
    ⟨hnil, hhead⟩ | ⟨e, he, hmax, hhead⟩
  · refine .inr ⟨fun e he hid hkind => ?_, by simp only [lastActivity, hhead]; rfl⟩
    have := (hmem e).2 ⟨he, hid, hkind⟩
    rw [hnil] at this
    exact List.not_mem_nil this
  · obtain ⟨hin, hid, hkind⟩ := (hmem e).1 he
    refine .inl ⟨e, hin, hid, hkind, fun e' he' hid' hkind' => ?_, ?_⟩
    · exact hmax e' ((hmem e').2 ⟨he', hid', hkind'⟩)
    · simp only [lastActivity, hhead]
      rfl

/-- Following the cursors from none ends, and lists every conversation that is not archived and in
a visible project once, the most recent first and at one time the greatest id first. -/
theorem recent_follow (s : ProjectStore) (hk : s.store.SessionsKeyed)
    (hids : ∀ x ∈ s.store.sessions, ValidId x.id) :
    ∃ rows, (∀ fuel, s.store.sessions.length < fuel →
        Keyset.follow s.recentSessions fuel none = some rows) ∧
      (rows.map (·.session)).Nodup ∧
      (∀ x, x ∈ rows.map (·.session) ↔
        x ∈ s.store.sessions ∧ x.archived = false ∧ x.projectId ∉ s.hiddenProjects) ∧
      (rows.Pairwise fun a b => b.updatedAt < a.updatedAt ∨
        b.updatedAt = a.updatedAt ∧ b.session.id < a.session.id) ∧
      ∀ row ∈ rows, s.Dated row := by
  have hsessions := s.newestFirst_perm.map (·.session)
  rw [recent_ids] at hsessions
  refine ⟨s.newestFirst, fun fuel hfuel => ?_, ?_, fun x => ?_, ?_, fun row hrow => ?_⟩
  · refine Keyset.follow_lists (newestFirst_descending hk) (by decide)
      (P := fun k => ∀ c ∈ k, ValidId c.id) (fun k hk' => recentSessions_page hk hk')
      (fun k next _ hnext => ?_) fuel none (fun c hc => by cases hc) ?_
    · -- a cursor is the one behind a row of the list
      unfold Keyset.page at hnext
      dsimp only at hnext
      split at hnext
      · obtain ⟨row, hlast, rfl⟩ := Option.map_eq_some_iff.1 hnext
        have hrow := List.mem_of_mem_take (List.mem_of_getLast? hlast)
        have hlisted : row ∈ s.newestFirst := by
          cases k with
          | none => exact hrow
          | some c => exact (List.mem_filter.1 hrow).1
        have hsession := hsessions.subset (List.mem_map_of_mem hlisted)
        intro c hc
        obtain rfl := Option.mem_some_iff.1 hc
        exact hids _ (List.mem_filter.1 hsession).1
      · cases hnext
    · refine lt_of_le_of_lt ?_ hfuel
      have hlen := hsessions.length_eq
      rw [List.length_map] at hlen
      rw [Keyset.below, hlen]
      exact List.length_filter_le _ _
  · exact hsessions.nodup_iff.2 ((List.Nodup.of_map _ hk).filter _)
  · rw [hsessions.mem_iff, List.mem_filter]
    simp
  · exact (newestFirst_descending hk).imp fun hab => RecentCursor.lt_iff.1 hab
  · exact recent_dated (s.newestFirst_perm.subset hrow)

/-- Two sessions created at one time. -/
def twins : ProjectStore where
  store :=
    { sessions := ["a", "b"].map fun id =>
        { id, projectId := "p", title := "t", agent := "claude", status := .ready, createdAt := 1 } }

theorem recent_follow_twins : ∃ rows, (∀ fuel, 2 < fuel →
      Keyset.follow twins.recentSessions fuel none = some rows) ∧
    (rows.map (·.session)).Nodup ∧
    (∀ x, x ∈ rows.map (·.session) ↔
      x ∈ twins.store.sessions ∧ x.archived = false ∧ x.projectId ∉ twins.hiddenProjects) ∧
    (rows.Pairwise fun a b => b.updatedAt < a.updatedAt ∨
      b.updatedAt = a.updatedAt ∧ b.session.id < a.session.id) ∧
    ∀ row ∈ rows, twins.Dated row :=
  recent_follow twins (by unfold Store.SessionsKeyed Keyed; decide) (by decide)

end ProjectStore

end LatteWork
