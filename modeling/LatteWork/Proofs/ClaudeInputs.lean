import LatteWork.Proofs.ClaudeDiscipline

/-!
# What becomes of an input handed over to Claude

An input is outstanding from its hand-off until a result of the turn, when a message of the turn has
named it by then. That result reports it, once (`inputs_attributed`).
-/

namespace LatteWork

namespace Claude

open Prog Assoc

/-- The inputs handed over, each with the uuid it went out under. -/
def handOffs (log : Log) : List (String × String) := log.filterMap fun e => handOff e.1

/-- How often a request was handed over. -/
def handed (r : String) (log : Log) : ℕ := ((handOffs log).map (·.2)).count r

/-- How often a request was reported consumed. -/
def reported (r : String) (log : Log) : ℕ := ((log.flatMap (·.2)).flatMap Action.consumes).count r

/-- The inputs a message of the turn names. -/
def names (i : Input) : List String := ((messageOf i).map named).getD []

/-- A request was handed over under a uuid, and a message after that named it. -/
def NamedSince (uuid r : String) (log : Log) : Prop :=
  ∃ before text out after, log = before ++ (.queue r text uuid, out) :: after ∧
    ∃ e ∈ after, uuid ∈ names e.1

variable {a : Claude} {c c' : Turns} {i : Input} {out : List Action} {log : Log} {m : Json}
  {r uuid : String}

/-- What one input does to the inputs handed over. -/
inductive Effect (c c' : Turns) (i : Input) (out : List Action) : Prop
  | handed {r text uuid : String} : i = .queue r text uuid → out.flatMap Action.consumes = [] →
      c'.queued = put uuid r c.queued → c'.consumed = c.consumed → Effect c c' i out
  | named : handOff i = none → out.flatMap Action.consumes = [] → c'.queued = c.queued →
      c'.consumed = (names i).filter (fun uuid => (c.queued.lookup uuid).isSome) ∪ c.consumed →
      Effect c c' i out
  | settled {m : Json} : i = .message (some m) → endsTurn m = true →
      out.flatMap Action.consumes = (c.attributed m).reported →
      c'.queued = (c.attributed m).settled.queued → c'.consumed = [] → Effect c c' i out

theorem Remarks.consumes (h : Remarks out) : out.flatMap Action.consumes = [] := by
  rw [List.flatMap_eq_nil_iff]
  intro x hx
  have := h x hx
  cases x <;> simp_all [remark, Action.consumes]

theorem report_consumes (c : Turns) : c.report.flatMap Action.consumes = c.reported := by
  rw [Turns.report]
  split
  · rename_i h
    exact h.symm
  · simp [Action.consumes]

theorem Turns.Moves.effect (hm : c.Moves i out c') : Effect c c' i out := by
  cases hm with
  | aside hstart hqueue hmessage hout =>
    have hplain : handOff i = none ∧ names i = [] := by
      cases i with
      | queue r text uuid => exact absurd rfl (hqueue r text uuid)
      | message line => exact absurd rfl (hmessage line)
      | _ => exact ⟨rfl, rfl⟩
    refine .named hplain.1 hout.consumes rfl ?_
    rw [hplain.2]
    rfl
  | «open» _ hi _ hout =>
    rcases hi with rfl | rfl
    · exact .named rfl hout.consumes rfl rfl
    · exact .named rfl hout.consumes rfl rfl
  | queue => exact .handed rfl rfl rfl rfl
  | first _ hout => exact .named rfl hout.consumes rfl rfl
  | start => exact .named rfl rfl rfl rfl
  | message hout => exact .named rfl hout.consumes rfl rfl
  | ready => exact .named rfl rfl rfl rfl
  | opened _ _ _ hout => exact .named rfl hout.consumes rfl rfl
  | revived _ hout => exact .named rfl hout.consumes rfl rfl
  | trailing hm => exact .settled rfl hm (report_consumes _) rfl rfl
  | @result m rest message hm _ hrest =>
    refine .settled rfl hm ?_ rfl rfl
    have hstarted : (if c.phase = .betweenTurns then [Action.turnStarted] else []).flatMap
        Action.consumes = [] := by split <;> rfl
    rw [List.flatMap_append, List.flatMap_append, List.flatMap_append, report_consumes, hstarted,
      hrest.consumes]
    exact (List.append_nil _).trans ((List.append_nil _).trans (List.append_nil _))

theorem handOffs_concat : handOffs (log ++ [(i, out)]) = handOffs log ++ (handOff i).toList := by
  rw [handOffs, List.filterMap_append]
  rcases h : handOff i <;> simp [handOffs, h]

theorem reported_concat : reported r (log ++ [(i, out)]) =
    reported r log + (out.flatMap Action.consumes).count r := by
  simp [reported]

theorem NamedSince.concat (h : NamedSince uuid r log) : NamedSince uuid r (log ++ [(i, out)]) := by
  obtain ⟨before, text, out', after, rfl, e, he, hu⟩ := h
  exact ⟨before, text, out', after ++ [(i, out)], by simp, e, List.mem_append.2 (.inl he), hu⟩

/-- A hand-off of the log that the next message names. -/
theorem namedSince_of_handOff (h : (uuid, r) ∈ handOffs log) (hu : uuid ∈ names i) :
    NamedSince uuid r (log ++ [(i, out)]) := by
  obtain ⟨⟨i', out'⟩, he, hi⟩ := List.mem_filterMap.1 h
  obtain ⟨before, after, rfl⟩ := List.append_of_mem he
  cases i' with
  | queue r' text uuid' =>
    obtain ⟨rfl, rfl⟩ := Prod.mk.inj (Option.some.inj hi)
    exact ⟨before, text, out', after ++ [(i, out)], by simp, (i, out),
      List.mem_append.2 (.inr (List.mem_singleton_self _)), hu⟩
  | _ => cases hi

/-- The accounts of the inputs handed over. -/
structure Ledger (c : Turns) (log : Log) : Prop where
  keys : (c.queued.map (·.1)).Nodup
  handed : ∀ p ∈ c.queued, p ∈ handOffs log
  consumed : c.consumed.Nodup
  known : ∀ uuid ∈ c.consumed, uuid ∈ c.queued.map (·.1)
  balance : ∀ r, reported r log + (c.queued.map (·.2)).count r = Claude.handed r log
  named : ∀ p ∈ c.queued, p.1 ∈ c.consumed → NamedSince p.1 p.2 log
  reports : ∀ before i out after, log = before ++ (i, out) :: after →
    ∀ r ∈ out.flatMap Action.consumes, (∃ m, i = .message (some m) ∧ endsTurn m = true) ∧
      ∃ uuid, NamedSince uuid r (before ++ [(i, out)])
  unnamed : ∀ before r text uuid out after, log = before ++ (.queue r text uuid, out) :: after →
    (∀ e ∈ after, uuid ∉ names e.1) → (uuid, r) ∈ c.queued ∧ uuid ∉ c.consumed

theorem mem_attributed {ids : List String}
    (hu : uuid ∈ ids.filter (fun uuid => (c.queued.lookup uuid).isSome) ∪ c.consumed) :
    uuid ∈ ids ∧ uuid ∈ c.queued.map (·.1) ∨ uuid ∈ c.consumed := by
  rcases List.mem_union_iff.1 hu with hu | hu
  · obtain ⟨hn, hlook⟩ := List.mem_filter.1 hu
    obtain ⟨r, hr⟩ := Option.isSome_iff_exists.1 hlook
    exact .inl ⟨hn, List.mem_map.2 ⟨_, mem_of_lookup hr, rfl⟩⟩
  · exact .inr hu

theorem mem_handOffs_concat {p : String × String} (h : p ∈ handOffs log) :
    p ∈ handOffs (log ++ [(i, out)]) := by
  rw [handOffs_concat]
  exact List.mem_append.2 (.inl h)

namespace Ledger

/-- Reports of the entries before the last one. -/
theorem reports_concat (h : Ledger c log)
    (hlast : ∀ r ∈ out.flatMap Action.consumes, (∃ m, i = .message (some m) ∧ endsTurn m = true) ∧
      ∃ uuid, NamedSince uuid r (log ++ [(i, out)])) :
    ∀ before i' out' after, log ++ [(i, out)] = before ++ (i', out') :: after →
      ∀ r ∈ out'.flatMap Action.consumes, (∃ m, i' = .message (some m) ∧ endsTurn m = true) ∧
        ∃ uuid, NamedSince uuid r (before ++ [(i', out')]) := by
  intro before i' out' after hlog r hr
  rcases Machine.entry_cases hlog with ⟨rfl, he, _⟩ | ⟨rest, _, hlog⟩
  · obtain ⟨rfl, rfl⟩ := Prod.mk.inj he
    exact hlast r hr
  · exact h.reports before i' out' rest hlog r hr

/-- An input hands a request over. -/
theorem hand_over (h : Ledger c log) {text : String} (hi : i = .queue r text uuid)
    (hfresh : uuid ∉ (handOffs log).map (·.1)) (hout : out.flatMap Action.consumes = [])
    (hq : c'.queued = put uuid r c.queued) (hc : c'.consumed = c.consumed) :
    Ledger c' (log ++ [(i, out)]) := by
  have hkey : uuid ∉ c.queued.map (·.1) := fun hmem => by
    obtain ⟨p, hp, hpu⟩ := List.mem_map.1 hmem
    exact hfresh (List.mem_map.2 ⟨p, h.handed p hp, hpu⟩)
  have hq : c'.queued = c.queued ++ [(uuid, r)] := by
    rw [hq, put, drop_of_not_mem]
    rintro p hp rfl
    exact hkey (List.mem_map.2 ⟨p, hp, rfl⟩)
  have hoffs : handOffs (log ++ [(i, out)]) = handOffs log ++ [(uuid, r)] := by
    rw [handOffs_concat, hi]
    rfl
  refine ⟨?_, ?_, hc ▸ h.consumed, ?_, fun r' => ?_, ?_, h.reports_concat ?_, ?_⟩
  · rw [hq, List.map_append, List.nodup_append]
    refine ⟨h.keys, List.nodup_singleton _, fun k hk k' hk' => ?_⟩
    rintro rfl
    rw [List.map_cons, List.map_nil, List.mem_singleton] at hk'
    rw [hk'] at hk
    exact hkey hk
  · intro p hp
    rw [hoffs]
    rw [hq] at hp
    exact (List.mem_append.1 hp).elim (fun hp => List.mem_append.2 (.inl (h.handed p hp)))
      fun hp => List.mem_append.2 (.inr hp)
  · intro u hu
    rw [hc] at hu
    rw [hq, List.map_append]
    exact List.mem_append.2 (.inl (h.known u hu))
  · have := h.balance r'
    rw [Claude.handed] at this
    rw [reported_concat, hout, hq, Claude.handed, hoffs, List.map_append, List.map_append,
      List.count_append, List.count_append, List.count_nil]
    omega
  · intro p hp hpc
    rw [hc] at hpc
    rw [hq] at hp
    rcases List.mem_append.1 hp with hp | hp
    · exact (h.named p hp hpc).concat
    · rw [List.mem_singleton.1 hp] at hpc
      exact absurd (h.known _ hpc) hkey
  · intro r' hr'
    rw [hout] at hr'
    exact absurd hr' List.not_mem_nil
  · intro before r' text' uuid' out' after hlog hlater
    rw [hq, hc]
    rcases Machine.entry_cases hlog with ⟨_, he, _⟩ | ⟨rest, rfl, hbefore⟩
    · obtain ⟨hqueue, _⟩ := Prod.mk.inj he
      obtain ⟨rfl, _, rfl⟩ := Input.queue.inj (hi.symm.trans hqueue.symm)
      exact ⟨List.mem_append.2 (.inr (List.mem_singleton_self _)), fun hmem => hkey (h.known _ hmem)⟩
    · obtain ⟨hin, hnot⟩ := h.unnamed before r' text' uuid' out' rest hbefore
        fun e he => hlater e (List.mem_append.2 (.inl he))
      exact ⟨List.mem_append.2 (.inl hin), hnot⟩

/-- An input names some of the outstanding ones. -/
theorem name (h : Ledger c log) (hi : handOff i = none) (hout : out.flatMap Action.consumes = [])
    (hq : c'.queued = c.queued)
    (hc : c'.consumed = (names i).filter (fun uuid => (c.queued.lookup uuid).isSome) ∪ c.consumed) :
    Ledger c' (log ++ [(i, out)]) := by
  have hoffs : handOffs (log ++ [(i, out)]) = handOffs log := by
    rw [handOffs_concat, hi]
    exact List.append_nil _
  refine ⟨hq ▸ h.keys, ?_, ?_, ?_, fun r => ?_, ?_, h.reports_concat ?_, ?_⟩
  · rw [hq, hoffs]
    exact h.handed
  · rw [hc]
    exact h.consumed.union _
  · intro u hu
    rw [hc] at hu
    rw [hq]
    exact (mem_attributed hu).elim (·.2) (h.known u)
  · have := h.balance r
    rw [reported_concat, hout, hq, Claude.handed, hoffs, List.count_nil]
    exact this
  · intro p hp hpc
    rw [hq] at hp
    rw [hc] at hpc
    rcases mem_attributed hpc with ⟨hn, _⟩ | hpc
    · exact namedSince_of_handOff (h.handed p hp) hn
    · exact (h.named p hp hpc).concat
  · intro r hr
    rw [hout] at hr
    exact absurd hr List.not_mem_nil
  · intro before r text uuid out' after hlog hlater
    rw [hq, hc]
    rcases Machine.entry_cases hlog with ⟨_, he, _⟩ | ⟨rest, rfl, hbefore⟩
    · rw [← (Prod.mk.inj he).1] at hi
      cases hi
    · obtain ⟨hin, hnot⟩ := h.unnamed before r text uuid out' rest hbefore
        fun e he => hlater e (List.mem_append.2 (.inl he))
      refine ⟨hin, fun hmem => ?_⟩
      rcases mem_attributed hmem with ⟨hn, _⟩ | hmem
      · exact hlater _ (List.mem_append.2 (.inr (List.mem_singleton_self _))) hn
      · exact hnot hmem

/-- A result of the turn reports what was named. -/
theorem settle (h : Ledger c log) (hi : i = .message (some m)) (hm : endsTurn m = true)
    (hout : out.flatMap Action.consumes = (c.attributed m).reported)
    (hq : c'.queued = (c.attributed m).settled.queued) (hc : c'.consumed = []) :
    Ledger c' (log ++ [(i, out)]) := by
  have hnames : names i = Claude.named m := by
    rw [hi]
    rfl
  have hoffs : handOffs (log ++ [(i, out)]) = handOffs log := by
    rw [handOffs_concat, hi]
    exact List.append_nil _
  have hq : c'.queued = c.queued.filter (·.1 ∉ (c.attributed m).consumed) := hq
  have hnodup : (c.attributed m).consumed.Nodup := h.consumed.union _
  have hknown : ∀ u ∈ (c.attributed m).consumed, u ∈ c.queued.map (·.1) := fun u hu =>
    (mem_attributed hu).elim (·.2) (h.known u)
  refine ⟨?_, ?_, hc ▸ List.nodup_nil, ?_, fun r => ?_, ?_, h.reports_concat ?_, ?_⟩
  · rw [hq]
    exact (List.filter_sublist.map _).nodup h.keys
  · intro p hp
    rw [hq] at hp
    rw [hoffs]
    exact h.handed p (List.mem_filter.1 hp).1
  · intro u hu
    rw [hc] at hu
    exact absurd hu List.not_mem_nil
  · have hreported : (c.attributed m).reported.count r =
        ((c.queued.filter (·.1 ∈ (c.attributed m).consumed)).map (·.2)).count r :=
      (filterMap_lookup_perm h.keys hnodup hknown).count_eq r
    have hsplit : ((c.queued.filter (·.1 ∈ (c.attributed m).consumed)).map (·.2)).count r +
        ((c.queued.filter (·.1 ∉ (c.attributed m).consumed)).map (·.2)).count r =
          (c.queued.map (·.2)).count r := by
      have hperm := ((List.filter_append_perm (·.1 ∈ (c.attributed m).consumed) c.queued).map
        (·.2)).count_eq r
      rw [List.map_append, List.count_append] at hperm
      rw [← hperm]
      simp only [decide_not]
    have := h.balance r
    rw [reported_concat, hout, hreported, hq, Claude.handed, hoffs]
    rw [Claude.handed] at this
    omega
  · intro p _ hpc
    rw [hc] at hpc
    exact absurd hpc List.not_mem_nil
  · intro r hr
    rw [hout] at hr
    obtain ⟨u, hu, hlook⟩ := List.mem_filterMap.1 hr
    have hin : (u, r) ∈ c.queued := mem_of_lookup hlook
    refine ⟨⟨m, hi, hm⟩, u, ?_⟩
    rcases mem_attributed hu with ⟨hn, _⟩ | hu
    · exact namedSince_of_handOff (h.handed _ hin) (by rw [hnames]; exact hn)
    · exact (h.named _ hin hu).concat
  · intro before r text uuid out' after hlog hlater
    rw [hq, hc]
    rcases Machine.entry_cases hlog with ⟨_, he, _⟩ | ⟨rest, rfl, hbefore⟩
    · rw [hi] at he
      cases (Prod.mk.inj he).1
    · obtain ⟨hin, hnot⟩ := h.unnamed before r text uuid out' rest hbefore
        fun e he => hlater e (List.mem_append.2 (.inl he))
      refine ⟨List.mem_filter.2 ⟨hin, ?_⟩, List.not_mem_nil⟩
      rw [decide_eq_true_eq]
      intro hmem
      rcases mem_attributed hmem with ⟨hn, _⟩ | hmem
      · exact hlater _ (List.mem_append.2 (.inr (List.mem_singleton_self _))) (by rw [hnames]; exact hn)
      · exact hnot hmem

theorem next (h : Ledger c log) (hm : c.Moves i out c')
    (hfresh : ((handOffs (log ++ [(i, out)])).map (·.1)).Nodup) : Ledger c' (log ++ [(i, out)]) := by
  cases hm.effect with
  | handed hi hout hq hc =>
    refine h.hand_over hi ?_ hout hq hc
    rw [handOffs_concat, hi, List.map_append, List.nodup_append] at hfresh
    intro hmem
    exact hfresh.2.2 _ hmem _ (List.mem_singleton_self _) rfl
  | named hi hout hq hc => exact h.name hi hout hq hc
  | settled hi hm hout hq hc => exact h.settle hi hm hout hq hc

end Ledger

theorem created_ledger {session : Session} {config : LaunchConfig}
    (h : create session config = .ok a) : Ledger a.turns [] := by
  simp only [create, Fallible.bind_eq_ok, Fallible.pure_eq_ok] at h
  obtain ⟨_, _, rfl⟩ := h
  refine ⟨List.nodup_nil, by simp [turns], List.nodup_nil, by simp [turns], fun _ => rfl, by simp [turns],
    fun before _ _ _ h => ?_, fun before _ _ _ _ _ h => ?_⟩
  · cases before <;> cases h
  · cases before <;> cases h

theorem run_ledger {session : Session} {config : LaunchConfig}
    (hcreate : create session config = .ok a) (inputs : List Input) :
    Machine.Reached (fun a log => ((handOffs log).map (·.1)).Nodup → Ledger a.turns log)
      (Machine.run advance survivable a inputs) := by
  refine Machine.run_invariant (fun _ => created_ledger hcreate) ?_ ?_ inputs
  · intro a log i out t h hrun hfresh
    refine (h ?_).next ((wp_run advance_spec hrun).1 out rfl) hfresh
    rw [handOffs_concat, List.map_append] at hfresh
    exact hfresh.of_append_left
  · intro a log i e t hl h hrun
    rw [(wp_run advance_spec hrun).2 e rfl (by rintro line rfl; cases hl)]
    exact h

/-- A request is reported no more often than it was handed over, by a result of the turn, and when a
message named it since; what no message named stays outstanding. The uuids the accepted inputs go
out under are fresh. -/
theorem inputs_attributed (session : Session) (config : LaunchConfig) (a : Claude)
    (hcreate : create session config = .ok a) (inputs : List Input)
    (hfresh : ((handOffs (Machine.run advance survivable a inputs).log).map (·.1)).Nodup) :
    let life := Machine.run advance survivable a inputs
    (∀ r, reported r life.log ≤ handed r life.log) ∧
    (∀ before i out after, life.log = before ++ (i, out) :: after →
      ∀ r ∈ out.flatMap Action.consumes, (∃ m, i = .message (some m) ∧ endsTurn m = true) ∧
        ∃ uuid, NamedSince uuid r (before ++ [(i, out)])) ∧
    (life.ended = false →
      let a := life.state
      (∀ r, reported r life.log + (a.queuedInputs.map (·.2)).count r = handed r life.log) ∧
      (∀ uuid ∈ a.consumedInputs, uuid ∈ a.queuedInputs.map (·.1)) ∧
      ∀ before r text uuid out after, life.log = before ++ (.queue r text uuid, out) :: after →
        (∀ e ∈ after, uuid ∉ names e.1) → (uuid, r) ∈ a.queuedInputs) := by
  intro life
  obtain ⟨s, hs, hlive⟩ := run_ledger hcreate inputs
  have hledger := hs hfresh
  refine ⟨fun r => ?_, hledger.reports, fun hend => ?_⟩
  · have hbalance : reported r life.log + _ = handed r life.log := hledger.balance r
    omega
  · obtain rfl : life.state = s := hlive hend
    refine ⟨hledger.balance, hledger.known, fun before r text uuid out after hlog hlater => ?_⟩
    exact (hledger.unnamed before r text uuid out after hlog hlater).1

/-- The input of `lateReplay` is reported by the next result. -/
def reportedLate : List Input := lateReplay ++ [.message (some (resultOf ""))]

theorem inputs_attributed_late :
    reported "r" (Machine.run advance survivable {} reportedLate).log = 1 ∧
      reported "r" (Machine.run advance survivable {} reportedLate).log ≤
        handed "r" (Machine.run advance survivable {} reportedLate).log := by
  have hfresh : ((handOffs (Machine.run advance survivable {} reportedLate).log).map (·.1)).Nodup := by
    decide +kernel
  have h := inputs_attributed default {} {} rfl reportedLate hfresh
  exact ⟨by decide +kernel, h.1 "r"⟩

end Claude

end LatteWork
