import LatteWork.Runtime.TitleRefresh

/-!
# Every title has its turn

However often the list of sessions is asked for, a session's title is not read twice within two
seconds and the cache stays bounded. Asked for at least two seconds apart, it reads every title in
as many calls as it takes to read sixteen at a time.
-/

namespace LatteWork

open Assoc

namespace TitleRefreshCache

variable {c c' : TitleRefreshCache} {S l : List Session} {s session : Session} {native : String}
  {now t n : ℕ} {calls : List Call}

theorem lookup_retain (h : c.reads.lookup s.id = some (native, t)) (ht : now - t < interval) :
    (c.retain now).reads.lookup s.id = some (native, t) := by
  rw [lookup_eq_some (c.retain now).nodup]
  exact List.mem_filter.2 ⟨mem_of_lookup h, decide_eq_true ht⟩

/-- What a claim does: it may first drop what was read long ago, and it may then add a read. -/
theorem claim_cases (c : TitleRefreshCache) (session : Session) (now : ℕ) :
    ∃ c', (c' = c ∨ c' = c.retain now) ∧ (c.claim session now = (false, c') ∨
      ∃ native, session.nativeId = some native ∧ c'.reads.length < limit ∧
        c.claim session now = (true, c'.insert session.id native now)) := by
  unfold claim
  cases session.nativeId with
  | none => exact ⟨c, .inl rfl, .inl rfl⟩
  | some native =>
    dsimp only
    split
    · exact ⟨c, .inl rfl, .inl rfl⟩
    · by_cases hfull : limit ≤ c.reads.length
      · simp only [if_pos hfull]
        refine ⟨c.retain now, .inr rfl, ?_⟩
        split
        · exact .inl rfl
        · exact .inr ⟨native, rfl, by omega, rfl⟩
      · simp only [if_neg hfull]
        exact ⟨c, .inl rfl, .inr ⟨native, rfl, by omega, rfl⟩⟩

theorem claim_recent (hnative : session.nativeId = some native)
    (h : c.reads.lookup session.id = some (native, t)) (ht : now - t < interval) :
    c.claim session now = (false, c) := by
  simp [claim, hnative, h, ht]

theorem claim_rested (hnative : session.nativeId = some native)
    (hrested : ∀ t, c.lastRead session = some t → t + interval ≤ now)
    (hroom : c.reads.length < limit) :
    c.claim session now = (true, c.insert session.id native now) := by
  have hold : ((c.reads.lookup session.id).any fun r => r.1 = native ∧ now - r.2 < interval) =
      false := by
    cases h : c.reads.lookup session.id with
    | none => rfl
    | some r =>
      rw [Option.any_some, decide_eq_false_iff_not]
      rintro ⟨rfl, hr⟩
      have := hrested r.2 (by simp [lastRead, h, hnative])
      omega
  unfold claim
  simp only [hnative, hold, Nat.not_le.2 hroom, Bool.false_eq_true, if_false]

/-! ### Runs -/

theorem claimFirst_keeps {P : TitleRefreshCache → Prop} : ∀ {l : List Session} {n c},
    (∀ c, ∀ session ∈ l, P c → P (c.claim session now).2) → P c → P (claimFirst now n l c).2
  | [], n, c, _, h => by cases n <;> exact h
  | session :: l, 0, c, _, h => h
  | session :: l, n + 1, c, hclaim, h => by
    have hnext := hclaim c session List.mem_cons_self h
    have hrest := fun c s hs => hclaim c s (List.mem_cons_of_mem session hs)
    unfold claimFirst
    rcases hc : c.claim session now with ⟨_ | _, c'⟩ <;> rw [hc] at hnext
    · exact claimFirst_keeps hrest hnext
    · exact claimFirst_keeps hrest hnext

theorem run_keeps {P : TitleRefreshCache → Prop} : ∀ {calls : List Call} {c},
    (∀ c, ∀ call ∈ calls, ∀ session ∈ call.sessions, P c → P (c.claim session call.now).2) →
    P c → P (c.run calls).2
  | [], _, _, h => h
  | call :: calls, c, hclaim, h => by
    unfold run
    refine run_keeps (fun c call hcall => hclaim c call (List.mem_cons_of_mem _ hcall)) ?_
    refine claimFirst_keeps (fun c s hs => hclaim c call List.mem_cons_self s ?_) h
    exact List.mem_mergeSort.1 hs

theorem claimFirst_mem : ∀ {l : List Session} {n c}, (claimFirst now n l c).1.Sublist l ∧
    (claimFirst now n l c).1.length ≤ n
  | [], n, c => by cases n <;> simp [claimFirst]
  | session :: l, 0, c => by simp [claimFirst]
  | session :: l, n + 1, c => by
    unfold claimFirst
    rcases c.claim session now with ⟨_ | _, c'⟩
    · obtain ⟨hsub, hlength⟩ := @claimFirst_mem l (n + 1) c'
      exact ⟨hsub.cons _, hlength⟩
    · obtain ⟨hsub, hlength⟩ := @claimFirst_mem l n c'
      exact ⟨hsub.cons_cons _, Nat.succ_le_succ hlength⟩

theorem claim_bounded (h : c.reads.length ≤ limit) :
    (c.claim session now).2.reads.length ≤ limit := by
  have hretain : (c.retain now).reads.length ≤ limit := Nat.le_trans (List.length_filter_le _ _) h
  obtain ⟨c', hc', hclaim | ⟨native, -, hroom, hclaim⟩⟩ := claim_cases c session now <;>
    rw [hclaim]
  · rcases hc' with rfl | rfl <;> assumption
  · have hput : (c'.insert session.id native now).reads.length ≤ _ := length_put_le
    show (c'.insert session.id native now).reads.length ≤ limit
    split at hput <;> omega

/-- What is read stays in the cache for two seconds, and is not read again. -/
theorem claim_held (hinj : session.id = s.id → session = s) (hnative : s.nativeId = some native)
    (h : c.reads.lookup s.id = some (native, t)) (ht : now - t < interval) :
    (c.claim session now).2.reads.lookup s.id = some (native, t) ∧
      ((c.claim session now).1 = true → session ≠ s) := by
  by_cases hs : session = s
  · subst hs
    rw [claim_recent hnative h ht]
    exact ⟨h, fun hc => by cases hc⟩
  · refine ⟨?_, fun _ => hs⟩
    obtain ⟨c', hc', hclaim⟩ := claim_cases c session now
    have hlookup : c'.reads.lookup s.id = some (native, t) := by
      rcases hc' with rfl | rfl
      · exact h
      · exact lookup_retain h ht
    rcases hclaim with hclaim | ⟨native', -, -, hclaim⟩ <;> rw [hclaim]
    · exact hlookup
    · show (put session.id _ c'.reads).lookup s.id = _
      rw [lookup_put, if_neg fun hid => hs (hinj hid.symm), hlookup]

theorem claimFirst_held (hnative : s.nativeId = some native) (ht : now - t < interval) :
    ∀ {l : List Session} {n c}, (∀ session ∈ l, session.id = s.id → session = s) →
      c.reads.lookup s.id = some (native, t) →
      (claimFirst now n l c).2.reads.lookup s.id = some (native, t) ∧ s ∉ (claimFirst now n l c).1
  | [], n, c, _, h => by cases n <;> exact ⟨h, List.not_mem_nil⟩
  | session :: l, 0, c, _, h => ⟨h, List.not_mem_nil⟩
  | session :: l, n + 1, c, hinj, h => by
    obtain ⟨hnext, hother⟩ := claim_held (hinj session List.mem_cons_self) hnative h ht
    have hrest := fun s hs => hinj s (List.mem_cons_of_mem session hs)
    unfold claimFirst
    rcases hc : c.claim session now with ⟨_ | _, c'⟩ <;> rw [hc] at hnext hother
    · exact claimFirst_held hnative ht hrest hnext
    · obtain ⟨hlast, hmem⟩ := @claimFirst_held hnative ht l n c' hrest hnext
      refine ⟨hlast, fun hs => ?_⟩
      rcases List.mem_cons.1 hs with rfl | hs
      · exact hother rfl rfl
      · exact hmem hs

/-- Whatever is claimed is in the cache from then on, and each session is claimed once. -/
theorem claimed_held : ∀ {l : List Session} {n c},
    (∀ s ∈ l, ∀ s' ∈ l, s.id = s'.id → s = s') →
    (∀ s ∈ (claimFirst now n l c).1, ∃ native, s.nativeId = some native ∧
      (claimFirst now n l c).2.reads.lookup s.id = some (native, now)) ∧
    ((claimFirst now n l c).1.map (·.id)).Nodup
  | [], n, c, _ => by cases n <;> simp [claimFirst]
  | session :: l, 0, c, _ => by simp [claimFirst]
  | session :: l, n + 1, c, hinj => by
    have hrest : ∀ s ∈ l, ∀ s' ∈ l, s.id = s'.id → s = s' := fun s hs s' hs' =>
      hinj s (List.mem_cons_of_mem _ hs) s' (List.mem_cons_of_mem _ hs')
    unfold claimFirst
    obtain ⟨c', -, hclaim | ⟨native, hnative, -, hclaim⟩⟩ := claim_cases c session now <;>
      simp only [hclaim]
    · exact claimed_held hrest
    · -- the session that was just claimed is held while the rest of the list is
      have hnow : now - now < interval := by
        rw [Nat.sub_self]
        decide
      have hput : (c'.insert session.id native now).reads.lookup session.id =
          some (native, now) := by
        show (put session.id _ c'.reads).lookup session.id = _
        rw [lookup_put, if_pos rfl]
      obtain ⟨hheld, hmem⟩ := @claimFirst_held _ _ _ _ hnative hnow l n _
        (fun s hs => hinj s (List.mem_cons_of_mem _ hs) session List.mem_cons_self) hput
      obtain ⟨hall, hnodup⟩ := @claimed_held l n (c'.insert session.id native now) hrest
      refine ⟨fun s hs => ?_, ?_⟩
      · rcases List.mem_cons.1 hs with rfl | hs
        · exact ⟨native, hnative, hheld⟩
        · exact hall s hs
      · rw [List.map_cons, List.nodup_cons]
        refine ⟨fun hid => ?_, hnodup⟩
        obtain ⟨s, hs, hid⟩ := List.mem_map.1 hid
        have hsl : s ∈ l := claimFirst_mem.1.subset hs
        obtain rfl := hinj s (List.mem_cons_of_mem _ hsl) session List.mem_cons_self hid
        exact hmem hs

/-- The reads of a run, one after the other. -/
def claims (log : List (ℕ × List Session)) : List (ℕ × Session) :=
  log.flatMap fun r => r.2.map (r.1, ·)

theorem mem_claims {log : List (ℕ × List Session)} {e : ℕ × Session} :
    e ∈ claims log ↔ ∃ r ∈ log, e.1 = r.1 ∧ e.2 ∈ r.2 := by
  obtain ⟨now, s⟩ := e
  simp only [claims, List.mem_flatMap, List.mem_map, Prod.mk.injEq]
  constructor
  · rintro ⟨r, hr, s, hs, rfl, rfl⟩
    exact ⟨r, hr, rfl, hs⟩
  · rintro ⟨r, hr, rfl, hs⟩
    exact ⟨r, hr, s, hs, rfl, rfl⟩

theorem run_calls : ∀ {calls : List Call} {c : TitleRefreshCache}, ∀ r ∈ (c.run calls).1,
    ∃ call ∈ calls, r.1 = call.now ∧ r.2.Subset call.sessions ∧ r.2.length ≤ 16
  | [], _, r, hr => by cases hr
  | call :: calls, c, r, hr => by
    unfold run at hr
    rcases List.mem_cons.1 hr with rfl | hr
    · obtain ⟨hsub, hlength⟩ := @claimFirst_mem call.now
        (call.sessions.mergeSort fun a b => Rotation.earlier (c.lastRead a) (c.lastRead b)) 16 c
      exact ⟨call, List.mem_cons_self, rfl, fun s hs => List.mem_mergeSort.1 (hsub.subset hs),
        hlength⟩
    · obtain ⟨call, hcall, h⟩ := run_calls r hr
      exact ⟨call, List.mem_cons_of_mem _ hcall, h⟩

/-- The sessions of each call are among the listed ones. -/
def Within (S : List Session) (calls : List Call) : Prop :=
  ∀ call ∈ calls, ∀ s ∈ call.sessions, s ∈ S

theorem run_held (hinj : ∀ s ∈ S, ∀ s' ∈ S, s.id = s'.id → s = s') (hs : s ∈ S)
    (hnative : s.nativeId = some native) : ∀ {calls : List Call} {c : TitleRefreshCache},
      Within S calls →
      calls.Pairwise (fun a b => a.now ≤ b.now) → c.reads.lookup s.id = some (native, t) →
      ∀ e ∈ claims (c.run calls).1, e.2 = s → t + interval ≤ e.1
  | [], _, _, _, _, e, he, _ => by cases he
  | call :: calls, c, hwithin, hsorted, h, e, he, hes => by
    obtain ⟨hlater, hsorted⟩ := List.pairwise_cons.1 hsorted
    by_cases ht : call.now - t < interval
    · obtain ⟨hnext, hnot⟩ := @claimFirst_held _ _ _ _ hnative ht
        (call.sessions.mergeSort fun a b => Rotation.earlier (c.lastRead a) (c.lastRead b)) 16 c
        (fun s' hs' => hinj s' (hwithin call List.mem_cons_self s' (List.mem_mergeSort.1 hs')) s hs)
        h
      unfold run at he
      rcases List.mem_append.1 he with he | he
      · obtain ⟨s', hs', rfl⟩ := List.mem_map.1 he
        exact absurd (hes ▸ hs') hnot
      · exact run_held hinj hs hnative
          (fun call hcall => hwithin call (List.mem_cons_of_mem _ hcall)) hsorted hnext e he hes
    · -- from here on every call comes two seconds later
      obtain ⟨r, hr, hnow, -⟩ := mem_claims.1 he
      obtain ⟨call', hcall', hnow', -⟩ := run_calls r hr
      have hle : call.now ≤ call'.now := by
        rcases List.mem_cons.1 hcall' with rfl | hcall'
        · exact Nat.le_refl _
        · exact hlater call' hcall'
      unfold interval at ht ⊢
      omega

/-- No session is read twice within two seconds. -/
theorem run_apart (hinj : ∀ s ∈ S, ∀ s' ∈ S, s.id = s'.id → s = s') :
    ∀ {calls : List Call} {c : TitleRefreshCache}, Within S calls →
      calls.Pairwise (fun a b => a.now ≤ b.now) →
      (claims (c.run calls).1).Pairwise fun a b => a.2.id = b.2.id → a.1 + interval ≤ b.1
  | [], _, _, _ => List.Pairwise.nil
  | call :: calls, c, hwithin, hsorted => by
    have hmem : ∀ s ∈ (c.select call.sessions call.now).1, s ∈ S := fun s hs =>
      hwithin call List.mem_cons_self s (List.mem_mergeSort.1 (claimFirst_mem.1.subset hs))
    have hrest : Within S calls := fun call hcall => hwithin call (List.mem_cons_of_mem _ hcall)
    obtain ⟨hheld, hnodup⟩ := @claimed_held call.now
      (call.sessions.mergeSort fun a b => Rotation.earlier (c.lastRead a) (c.lastRead b)) 16 c
      fun s hs s' hs' => hinj s (hwithin call List.mem_cons_self s (List.mem_mergeSort.1 hs)) s'
        (hwithin call List.mem_cons_self s' (List.mem_mergeSort.1 hs'))
    obtain ⟨-, hlater⟩ := List.pairwise_cons.1 hsorted
    unfold run
    refine List.pairwise_append.2 ⟨?_, run_apart hinj hrest hlater, fun a ha b hb hid => ?_⟩
    · rw [List.pairwise_map]
      exact (List.pairwise_map.1 hnodup).imp fun hne hid => absurd hid hne
    · obtain ⟨s, hs, rfl⟩ := List.mem_map.1 ha
      obtain ⟨native, hnative, hlookup⟩ := hheld s hs
      obtain ⟨r, hr, -, hbr⟩ := mem_claims.1 hb
      obtain ⟨call', hcall', -, hsub, -⟩ := run_calls r hr
      have hbS : b.2 ∈ S := hrest call' hcall' b.2 (hsub hbr)
      exact run_held hinj (hmem s hs) hnative hrest hlater hlookup b hb
        (hinj b.2 hbS s (hmem s hs) hid.symm)

/-! ### Turns -/

theorem lastRead_eq_some : c.lastRead s = some t ↔
    ∃ native, s.nativeId = some native ∧ (s.id, native, t) ∈ c.reads := by
  rw [lastRead, Option.map_eq_some_iff]
  constructor
  · rintro ⟨⟨native, at'⟩, hr, rfl⟩
    obtain ⟨hlookup, hnative⟩ := Option.filter_eq_some_iff.1 hr
    exact ⟨native, (of_decide_eq_true hnative).symm, mem_of_lookup hlookup⟩
  · rintro ⟨native, hnative, hmem⟩
    refine ⟨(native, t), Option.filter_eq_some_iff.2 ⟨?_, ?_⟩, rfl⟩
    · exact (lookup_eq_some c.nodup).2 hmem
    · simp [hnative]

/-- All reads are two seconds old. -/
def Rested (c : TitleRefreshCache) (S : List Session) (now : ℕ) : Prop :=
  ∀ s ∈ S, ∀ t, c.lastRead s = some t → t + interval ≤ now

/-- Only sessions of the list are in the cache. -/
def Over (c : TitleRefreshCache) (S : List Session) : Prop :=
  ∀ e ∈ c.reads, e.1 ∈ S.map (·.id)

theorem Over.length_le (h : c.Over S) : c.reads.length ≤ S.length := by
  have hsub : (c.reads.map (·.1)).Subperm (S.map (·.id)) :=
    List.subperm_of_subset c.nodup fun key hkey => by
      obtain ⟨e, he, rfl⟩ := List.mem_map.1 hkey
      exact h e he
  simpa using hsub.length_le

theorem Over.insert (h : c.Over S) (hs : s ∈ S) : (c.insert s.id native now).Over S := by
  intro e he
  rcases mem_put.1 he with ⟨he, -⟩ | rfl
  · exact h e he
  · exact List.mem_map.2 ⟨s, hs, rfl⟩

theorem mem_claim {e : String × String × ℕ} (h : e ∈ (c.claim session now).2.reads) :
    e ∈ c.reads ∨ (c.claim session now).1 = true ∧ e.1 = session.id ∧ e.2.2 = now := by
  obtain ⟨c', hc', hclaim⟩ := claim_cases c session now
  have hold : ∀ e ∈ c'.reads, e ∈ c.reads := by
    rcases hc' with rfl | rfl
    · exact fun e he => he
    · exact fun e he => (List.mem_filter.1 he).1
  rcases hclaim with hclaim | ⟨native, -, -, hclaim⟩ <;> rw [hclaim] at h ⊢
  · exact .inl (hold e h)
  · rcases mem_put.1 h with ⟨h, -⟩ | rfl
    · exact .inl (hold e h)
    · exact .inr ⟨rfl, rfl, rfl⟩

theorem Over.claim (h : c.Over S) (hs : s ∈ S) : (c.claim s now).2.Over S := by
  intro e he
  rcases mem_claim he with he | ⟨-, hid, -⟩
  · exact h e he
  · exact List.mem_map.2 ⟨s, hs, hid.symm⟩

theorem lastRead_claim (h : (c.claim session now).2.lastRead s = some t) :
    c.lastRead s = some t ∨ t = now := by
  obtain ⟨native, hnative, hmem⟩ := lastRead_eq_some.1 h
  rcases mem_claim hmem with hmem | ⟨-, -, hnow⟩
  · exact .inl (lastRead_eq_some.2 ⟨native, hnative, hmem⟩)
  · exact .inr hnow

theorem lastRead_run (h : (c.run calls).2.lastRead s = some t) :
    c.lastRead s = some t ∨ ∃ call ∈ calls, t = call.now := by
  refine @run_keeps (fun c' => ∀ t, c'.lastRead s = some t →
    c.lastRead s = some t ∨ ∃ call ∈ calls, t = call.now) calls c ?_ (fun _ => .inl) t h
  intro c' call hcall session _ hkeep t h
  rcases lastRead_claim h with h | rfl
  · exact hkeep t h
  · exact .inr ⟨call, hcall, rfl⟩

theorem lastRead_insert_self (h : s.nativeId = some native) :
    (c.insert s.id native now).lastRead s = some now := by
  rw [lastRead_eq_some]
  exact ⟨native, h, mem_put.2 (.inr rfl)⟩

theorem lastRead_insert (h : s.id ≠ session.id) :
    (c.insert session.id native now).lastRead s = c.lastRead s := by
  show ((put session.id _ c.reads).lookup s.id |>.filter _).map _ = _
  rw [lookup_put, if_neg h]
  rfl

/-- With room in the cache the first sessions are claimed, and nothing else changes. -/
theorem claimFirst_first (hinj : ∀ s ∈ S, ∀ s' ∈ S, s.id = s'.id → s = s')
    (hnative : ∀ s ∈ S, s.nativeId.isSome) (hlimit : S.length < limit) :
    ∀ {l : List Session} {n c}, (∀ s ∈ l, s ∈ S) → l.Nodup → c.Over S → c.Rested l now →
      (claimFirst now n l c).1 = l.take n ∧
      (∀ s ∈ l.take n, (claimFirst now n l c).2.lastRead s = some now) ∧
      ∀ s ∈ S, s ∉ l.take n → (claimFirst now n l c).2.lastRead s = c.lastRead s
  | [], n, c, _, _, _, _ => by cases n <;> simp [claimFirst]
  | session :: l, 0, c, _, _, _, _ => by simp [claimFirst]
  | session :: l, n + 1, c, hl, hnodup, hover, hrested => by
    obtain ⟨hnot, hnodup⟩ := List.nodup_cons.1 hnodup
    have hS := hl session List.mem_cons_self
    obtain ⟨native, hsession⟩ := Option.isSome_iff_exists.1 (hnative session hS)
    have hclaim := claim_rested hsession (hrested session List.mem_cons_self)
      (Nat.lt_of_le_of_lt hover.length_le hlimit)
    have hother : ∀ s ∈ S, s ≠ session →
        (c.insert session.id native now).lastRead s = c.lastRead s :=
      fun s hs hne => lastRead_insert fun hid => hne (hinj s hs session hS hid)
    have hstill : (c.insert session.id native now).Rested l now := by
      intro s hs t ht
      rw [hother s (hl s (List.mem_cons_of_mem _ hs)) fun h => hnot (h ▸ hs)] at ht
      exact hrested s (List.mem_cons_of_mem _ hs) t ht
    obtain ⟨htake, hserved, hothers⟩ := @claimFirst_first hinj hnative hlimit l n _
      (fun s hs => hl s (List.mem_cons_of_mem _ hs)) hnodup (hover.insert hS) hstill
    unfold claimFirst
    simp only [hclaim, List.take_succ_cons]
    refine ⟨by rw [htake], fun s hs => ?_, fun s hs hnot' => ?_⟩
    · rcases List.mem_cons.1 hs with rfl | hs
      · rw [hothers s hS fun h => hnot (List.mem_of_mem_take h), lastRead_insert_self hsession]
      · exact hserved s hs
    · obtain ⟨hne, hrest⟩ := not_or.1 (mt List.mem_cons.2 hnot')
      rw [hothers s hs hrest, hother s hs hne]

theorem select_round (hinj : ∀ s ∈ S, ∀ s' ∈ S, s.id = s'.id → s = s') (hnodup : S.Nodup)
    (hnative : ∀ s ∈ S, s.nativeId.isSome) (hlimit : S.length < limit) (hperm : l.Perm S)
    (hover : c.Over S) (hrested : c.Rested S now) :
    Rotation.Round 16 S c.lastRead now (c.select l now).1 (c.select l now).2.lastRead := by
  have hsort := (List.mergeSort_perm l fun a b =>
    Rotation.earlier (c.lastRead a) (c.lastRead b)).trans hperm
  obtain ⟨htake, hserved, hothers⟩ := claimFirst_first hinj hnative hlimit (n := 16)
    (fun s hs => hsort.mem_iff.1 hs) (hsort.nodup_iff.2 hnodup) hover
    (fun s hs => hrested s (hsort.mem_iff.1 hs))
  refine ⟨⟨_, hsort, ?_, htake⟩, fun s hs => ?_, fun s hs hnot => ?_⟩
  · exact List.pairwise_mergeSort
      (fun a b d => Rotation.earlier_trans (c.lastRead a) (c.lastRead b) (c.lastRead d))
      (fun a b => Rotation.earlier_total (c.lastRead a) (c.lastRead b)) l
  · exact hserved s (htake ▸ hs)
  · exact hothers s hs fun h => hnot (htake ▸ h)

theorem run_rounds (hinj : ∀ s ∈ S, ∀ s' ∈ S, s.id = s'.id → s = s') (hnodup : S.Nodup)
    (hnative : ∀ s ∈ S, s.nativeId.isSome) (hlimit : S.length < limit) :
    ∀ {calls : List Call} {c : TitleRefreshCache}, (∀ call ∈ calls, call.sessions.Perm S) →
      calls.Pairwise (fun a b => a.now + interval ≤ b.now) → c.Over S →
      (∀ call ∈ calls, c.Rested S call.now) →
      Rotation.Rounds 16 S c.lastRead (c.run calls).1 (c.run calls).2.lastRead
  | [], c, _, _, _, _ => .nil _
  | call :: calls, c, hperm, hsorted, hover, hrested => by
    obtain ⟨hlater, hsorted⟩ := List.pairwise_cons.1 hsorted
    have hround := select_round hinj hnodup hnative hlimit (hperm call List.mem_cons_self) hover
      (hrested call List.mem_cons_self)
    refine .cons hround (run_rounds hinj hnodup hnative hlimit
      (fun call hcall => hperm call (List.mem_cons_of_mem _ hcall)) hsorted ?_ ?_)
    · refine claimFirst_keeps (P := fun c => c.Over S) (fun c s hs h => h.claim ?_) hover
      exact (hperm call List.mem_cons_self).mem_iff.1 (List.mem_mergeSort.1 hs)
    · intro call' hcall' s hs t ht
      by_cases hbatch : s ∈ (c.select call.sessions call.now).1
      · rw [hround.served s hbatch] at ht
        cases ht
        exact hlater call' hcall'
      · rw [hround.others s hs hbatch] at ht
        exact hrested call' (List.mem_cons_of_mem _ hcall') s hs t ht

theorem run_length : ∀ {calls : List Call} {c : TitleRefreshCache},
    (c.run calls).1.length = calls.length
  | [], c => rfl
  | call :: calls, c => by simp [run, run_length]

theorem run_take : ∀ {calls : List Call} {n} {c : TitleRefreshCache},
    (c.run (calls.take n)).1 = (c.run calls).1.take n
  | [], n, c => by simp [run]
  | call :: calls, 0, c => by simp [run]
  | call :: calls, n + 1, c => by simp [run, run_take]

theorem run_drop : ∀ {calls : List Call} {n} {c : TitleRefreshCache},
    ((c.run (calls.take n)).2.run (calls.drop n)).1 = (c.run calls).1.drop n
  | [], n, c => by simp [run]
  | call :: calls, 0, c => by simp [run]
  | call :: calls, n + 1, c => by simp [run, run_drop]

/-- Any window of calls that is long enough serves every session. -/
theorem every_turn (hinj : ∀ s ∈ S, ∀ s' ∈ S, s.id = s'.id → s = s') (hnodup : S.Nodup)
    (hnative : ∀ s ∈ S, s.nativeId.isSome) (hlimit : S.length < limit)
    (hperm : ∀ call ∈ calls, call.sessions.Perm S)
    (hsorted : calls.Pairwise fun a b => a.now + interval ≤ b.now) (hover : c.Over S)
    {i : ℕ} (hrested : ∀ call ∈ calls[i]?, c.Rested S call.now)
    (hlength : i + n ≤ calls.length) (hmany : S.length ≤ 16 * n) :
    ∀ s ∈ S, ∃ r ∈ ((c.run calls).1.drop i).take n, s ∈ r.2 := by
  intro s hs
  have hsplit := List.pairwise_append.1 ((List.take_append_drop i calls).symm ▸ hsorted)
  obtain ⟨-, hdrop, hbefore⟩ := hsplit
  rw [← run_drop, ← run_take]
  cases hd : calls.drop i with
  | nil =>
    -- no call is left: the window is empty, and so is the list of sessions
    have hlen := congrArg List.length hd
    rw [List.length_drop, List.length_nil] at hlen
    have hpos := List.length_pos_of_mem hs
    omega
  | cons first rest =>
    have hfirst : calls[i]? = some first := by
      rw [← List.head?_drop, hd]
      rfl
    rw [hd] at hdrop hbefore
    have hmem : ∀ call ∈ (first :: rest).take n, call ∈ first :: rest :=
      fun call hcall => List.mem_of_mem_take hcall
    have hle : ∀ call ∈ first :: rest, first.now ≤ call.now := by
      intro call hcall
      rcases List.mem_cons.1 hcall with rfl | hcall
      · exact Nat.le_refl _
      · exact Nat.le_trans (Nat.le_add_right _ _) ((List.pairwise_cons.1 hdrop).1 call hcall)
    have hready : (c.run (calls.take i)).2.Rested S first.now := by
      intro s hs t ht
      rcases lastRead_run ht with ht | ⟨before, hmem, rfl⟩
      · exact hrested first hfirst s hs t ht
      · exact hbefore before hmem first List.mem_cons_self
    have hrounds := @run_rounds S hinj hnodup hnative hlimit ((first :: rest).take n)
      (c.run (calls.take i)).2
      (fun call hcall => hperm call (List.mem_of_mem_drop (hd ▸ hmem call hcall)))
      (hdrop.sublist (List.take_sublist _ _))
      (run_keeps (P := fun c => c.Over S) (fun c call hcall s hs h => h.claim
        ((hperm call (List.mem_of_mem_take hcall)).mem_iff.1 hs)) hover)
      (fun call hcall s hs t ht => Nat.le_trans (hready s hs t ht) (hle call (hmem call hcall)))
    refine hrounds.serve first.now hnodup (fun r hr => ?_) ?_ s hs ?_
    · obtain ⟨call, hcall, hnow, -⟩ := run_calls r hr
      exact hnow ▸ hle call (hmem call hcall)
    · have hlen := congrArg List.length hd
      rw [List.length_drop] at hlen
      rw [run_length, List.length_take, ← hlen, Nat.min_eq_left (by omega)]
      exact Nat.le_trans (List.length_filter_le _ _) hmany
    · cases hlast : (c.run (calls.take i)).2.lastRead s with
      | none => rfl
      | some t =>
        have ht := hready s hs t hlast
        unfold interval at ht
        exact decide_eq_true (by omega)

/-- Calls over a set of sessions, two seconds apart: sixteen at a time are read, none is read
twice within two seconds, the cache stays bounded, and every one has its turn. -/
theorem title_refresh (hids : (S.map (·.id)).Nodup) (hnative : ∀ s ∈ S, s.nativeId.isSome)
    (hlimit : S.length ≤ limit) (hover : c.Over S) (hperm : ∀ call ∈ calls, call.sessions.Perm S)
    (hsorted : calls.Pairwise fun a b => a.now + interval ≤ b.now) :
    (∀ r ∈ (c.run calls).1, r.2.length ≤ 16) ∧
    (claims (c.run calls).1).Pairwise (fun a b => a.2.id = b.2.id → a.1 + interval ≤ b.1) ∧
    (∀ i, (c.run (calls.take i)).2.reads.length ≤ limit) ∧
    (S.length < limit → ∀ i, (∀ call ∈ calls[i]?, c.Rested S call.now) →
      i + (S.length + 15) / 16 ≤ calls.length →
      ∀ s ∈ S, ∃ r ∈ ((c.run calls).1.drop i).take ((S.length + 15) / 16), s ∈ r.2) := by
  have hinj : ∀ s ∈ S, ∀ s' ∈ S, s.id = s'.id → s = s' :=
    fun s hs s' hs' hid => List.inj_on_of_nodup_map hids hs hs' hid
  refine ⟨fun r hr => ?_, ?_, fun i => ?_, fun hlt i hrested hlength => ?_⟩
  · obtain ⟨call, -, -, -, hr⟩ := run_calls r hr
    exact hr
  · refine run_apart hinj (fun call hcall s hs => (hperm call hcall).mem_iff.1 hs) ?_
    exact hsorted.imp fun h => Nat.le_trans (Nat.le_add_right _ _) h
  · exact run_keeps (P := fun c => c.reads.length ≤ limit)
      (fun c call _ session _ h => claim_bounded h) (Nat.le_trans hover.length_le hlimit)
  · exact every_turn hinj hids.of_map hnative hlt hperm hsorted hover hrested hlength (by omega)

/-! ### A full cache -/

/-- All reads are older than what is claimed now. -/
def Old (c : TitleRefreshCache) (now : ℕ) : Prop := ∀ e ∈ c.reads, e.2.2 + interval ≤ now

theorem claim_old (hnative : s.nativeId = some native) (h : c.Old now) :
    ∃ c', c.claim s now = (true, c') ∧ (limit ≤ c.reads.length → ∀ e ∈ c'.reads, e.2.2 = now) := by
  have hrested : ∀ t, c.lastRead s = some t → t + interval ≤ now := by
    intro t ht
    obtain ⟨native, -, hmem⟩ := lastRead_eq_some.1 ht
    exact h _ hmem
  by_cases hroom : c.reads.length < limit
  · exact ⟨_, claim_rested hnative hrested hroom, fun hfull => absurd hroom (Nat.not_lt.2 hfull)⟩
  · have hold : ((c.reads.lookup s.id).any fun r => r.1 = native ∧ now - r.2 < interval) =
        false := by
      cases hr : c.reads.lookup s.id with
      | none => rfl
      | some r =>
        have hage : r.2 + interval ≤ now := h _ (mem_of_lookup hr)
        simp only [Option.any_some, decide_eq_false_iff_not, not_and]
        omega
    have hempty : (c.retain now).reads = [] := by
      refine List.filter_eq_nil_iff.2 fun e he hlt => ?_
      have hage := h e he
      have := of_decide_eq_true hlt
      omega
    refine ⟨(c.retain now).insert s.id native now, ?_, fun _ e he => ?_⟩
    · unfold claim
      simp only [hnative, hold, Nat.not_lt.1 hroom, hempty, Bool.false_eq_true, if_true, if_false]
      rfl
    · rcases mem_put.1 he with ⟨he, -⟩ | rfl
      · rw [hempty] at he
        cases he
      · rfl

/-- The first of the list is claimed when it was not read yet. -/
theorem head_claimed (hnative : s.nativeId = some native) (hnone : c.lastRead s = none)
    (hold : c.Old now) : s ∈ (c.select (s :: l) now).1 := by
  obtain ⟨before, after, hsort, -, hbefore⟩ := @List.mergeSort_cons Session
    (fun a b => Rotation.earlier (c.lastRead a) (c.lastRead b))
    (fun a b d => Rotation.earlier_trans (c.lastRead a) (c.lastRead b) (c.lastRead d))
    (fun a b => Rotation.earlier_total (c.lastRead a) (c.lastRead b)) s l
  have hnil : before = [] := by
    refine List.eq_nil_iff_forall_not_mem.2 fun b hb => ?_
    have := hbefore b hb
    rw [hnone] at this
    cases this
  obtain ⟨c', hclaim, -⟩ := claim_old hnative hold
  unfold select
  rw [hsort, hnil, List.nil_append]
  unfold claimFirst
  rw [hclaim]
  exact List.mem_cons_self

/-- A call that finds the cache full of old reads drops them all. -/
theorem select_old (hnative : ∀ s ∈ l, s.nativeId.isSome) (hne : l ≠ []) (hold : c.Old now)
    (hfull : limit ≤ c.reads.length) : ∀ e ∈ (c.select l now).2.reads, e.2.2 = now := by
  cases hsort : l.mergeSort fun a b => Rotation.earlier (c.lastRead a) (c.lastRead b) with
  | nil => exact absurd (List.perm_nil.1 (hsort ▸ List.mergeSort_perm l _).symm) hne
  | cons first rest =>
    have hfirst : first ∈ l := List.mem_mergeSort.1 (hsort ▸ List.mem_cons_self)
    obtain ⟨native, hnative⟩ := Option.isSome_iff_exists.1 (hnative first hfirst)
    obtain ⟨c', hclaim, hnow⟩ := claim_old hnative hold
    unfold select
    rw [hsort]
    unfold claimFirst
    simp only [hclaim]
    refine claimFirst_keeps (P := fun c => ∀ e ∈ c.reads, e.2.2 = now) (fun c s _ h => ?_)
      (hnow hfull)
    intro e he
    rcases mem_claim he with he | ⟨-, -, hnow⟩
    · exact h e he
    · exact hnow

/-- What a call adds to the cache is what it claimed. -/
theorem claimFirst_added {e : String × String × ℕ} : ∀ {l : List Session} {n c},
    e ∈ (claimFirst now n l c).2.reads →
      e ∈ c.reads ∨ ∃ s ∈ (claimFirst now n l c).1, e.1 = s.id
  | [], n, c, h => by cases n <;> exact .inl h
  | session :: l, 0, c, h => .inl h
  | session :: l, n + 1, c, h => by
    unfold claimFirst at h ⊢
    have hmem := @mem_claim c session now e
    rcases hc : c.claim session now with ⟨_ | _, c'⟩ <;> rw [hc] at h hmem <;> simp only at h ⊢
    · rcases claimFirst_added h with h | h
      · exact .inl ((hmem h).resolve_right fun hn => by cases hn.1)
      · exact .inr h
    · rcases claimFirst_added h with h | ⟨s, hs, hid⟩
      · rcases hmem h with h | ⟨-, hid, -⟩
        · exact .inl h
        · exact .inr ⟨session, List.mem_cons_self, hid⟩
      · exact .inr ⟨s, List.mem_cons_of_mem _ hs, hid⟩

/-- Sessions that were not read yet fill the cache up. -/
theorem claimFirst_fresh : ∀ {l : List Session} {n c}, (∀ s ∈ l.take n, s.nativeId.isSome) →
    ((l.take n).map (·.id)).Nodup → (∀ s ∈ l.take n, ∀ e ∈ c.reads, e.1 ≠ s.id) →
    c.reads.length + n ≤ limit →
    (claimFirst now n l c).2.reads.length = c.reads.length + (l.take n).length
  | [], n, c, _, _, _, _ => by cases n <;> rfl
  | session :: l, 0, c, _, _, _, _ => rfl
  | session :: l, n + 1, c, hnative, hids, hfresh, hroom => by
    rw [List.take_succ_cons] at hnative hids hfresh ⊢
    obtain ⟨hnot, hids⟩ := List.nodup_cons.1 hids
    obtain ⟨native, hsession⟩ := Option.isSome_iff_exists.1 (hnative session List.mem_cons_self)
    have hnone : c.reads.lookup session.id = none :=
      lookup_eq_none.2 (hfresh session List.mem_cons_self)
    have hclaim : c.claim session now = (true, c.insert session.id native now) :=
      claim_rested hsession (fun t ht => by simp [lastRead, hnone] at ht) (by omega)
    have hput : (c.insert session.id native now).reads.length = c.reads.length + 1 := by
      show (put session.id _ c.reads).length = _
      rw [put, drop_of_lookup hnone, List.length_append, List.length_singleton]
    unfold claimFirst
    simp only [hclaim]
    rw [claimFirst_fresh (fun s hs => hnative s (List.mem_cons_of_mem _ hs)) hids ?_ (by omega),
      hput, List.length_cons]
    · omega
    · intro s hs e he
      rcases mem_put.1 he with ⟨he, -⟩ | rfl
      · exact hfresh s (List.mem_cons_of_mem _ hs) e he
      · exact fun hid => hnot (List.mem_map.2 ⟨s, hs, hid.symm⟩)

theorem claimFirst_now (h : ∀ e ∈ c.reads, e.2.2 ≤ now) :
    ∀ e ∈ (claimFirst now n l c).2.reads, e.2.2 ≤ now := by
  refine claimFirst_keeps (P := fun c => ∀ e ∈ c.reads, e.2.2 ≤ now) (fun c s _ h e he => ?_) h
  rcases mem_claim he with he | ⟨-, -, hnow⟩
  · exact h e he
  · exact Nat.le_of_eq hnow

theorem Old.select (h : c.Old now) (ht : now + interval ≤ t) : (c.select l now).2.Old t := by
  have hnow := claimFirst_now (n := 16)
    (l := l.mergeSort fun a b => Rotation.earlier (c.lastRead a) (c.lastRead b))
    fun e he => Nat.le_trans (Nat.le_add_right _ _) (h e he)
  exact fun e he => Nat.le_trans (Nat.add_le_add_right (hnow e he) _) ht

/-- With as many sessions as there is room, the one that is read first has a second turn before
the others had theirs. -/
theorem second_turn {t₁ t₂ t₃ : ℕ} (hids : ((s :: l).map (·.id)).Nodup)
    (hnative : ∀ session ∈ s :: l, session.nativeId.isSome)
    (hsorted : (s :: l).Pairwise fun a b => Rotation.earlier (c.lastRead a) (c.lastRead b) = true)
    (hfresh : ∀ session ∈ (s :: l).take 16, ∀ e ∈ c.reads, e.1 ≠ session.id)
    (hlong : 16 ≤ (s :: l).length) (hlength : c.reads.length + 16 = limit)
    (hold : c.Old t₁) (h₂ : t₁ + interval ≤ t₂) (h₃ : t₂ + interval ≤ t₃) :
    s ∈ (c.select (s :: l) t₁).1 ∧
    (s ∈ ((c.select (s :: l) t₁).2.select (s :: l) t₂).1 ∨
      s ∈ (((c.select (s :: l) t₁).2.select (s :: l) t₂).2.select (s :: l) t₃).1) := by
  obtain ⟨native, hs⟩ := Option.isSome_iff_exists.1 (hnative s List.mem_cons_self)
  have hold₂ := hold.select (l := s :: l) h₂
  have hfull : limit ≤ (c.select (s :: l) t₁).2.reads.length := by
    have htake : ∀ session ∈ (s :: l).take 16, session ∈ s :: l :=
      fun session h => List.mem_of_mem_take h
    unfold select
    refine Nat.le_of_eq ?_
    rw [List.mergeSort_of_pairwise hsorted, claimFirst_fresh (fun session h => hnative _ (htake _ h))
      (hids.sublist ((List.take_sublist _ _).map _)) hfresh (Nat.le_of_eq hlength),
      List.length_take, Nat.min_eq_left hlong, hlength]
  have hnow := select_old hnative (List.cons_ne_nil _ _) hold₂ hfull
  have hold₃ : ((c.select (s :: l) t₁).2.select (s :: l) t₂).2.Old t₃ :=
    fun e he => hnow e he ▸ h₃
  have hnone : c.lastRead s = none := by
    rw [Option.eq_none_iff_forall_ne_some]
    intro t ht
    obtain ⟨native, -, hmem⟩ := lastRead_eq_some.1 ht
    exact hfresh s (by simp) _ hmem rfl
  refine ⟨head_claimed hs hnone hold, ?_⟩
  cases hlast : ((c.select (s :: l) t₁).2.select (s :: l) t₂).2.lastRead s with
  | none => exact .inr (head_claimed hs hlast hold₃)
  | some t =>
    -- the call that found the cache full dropped the first read, so that it must have read again
    obtain ⟨native, -, hmem⟩ := lastRead_eq_some.1 hlast
    refine .inl ?_
    rcases claimFirst_added hmem with hmem' | ⟨session, hsession, hid⟩
    · have hage : t + interval ≤ t₂ := hold₂ _ hmem'
      have ht : t = t₂ := hnow _ hmem
      unfold interval at hage
      omega
    · have hin : session ∈ s :: l := List.mem_mergeSort.1 (claimFirst_mem.1.subset hsession)
      obtain rfl := List.inj_on_of_nodup_map hids List.mem_cons_self hin hid
      exact hsession

theorem length_batches : ∀ {log : List (ℕ × List Session)}, (∀ r ∈ log, r.2.length ≤ 16) →
    (log.flatMap (·.2)).length ≤ 16 * log.length
  | [], _ => Nat.le_refl _
  | r :: log, h => by
    have hr := h r List.mem_cons_self
    have hlog := length_batches fun r hr => h r (List.mem_cons_of_mem _ hr)
    rw [List.flatMap_cons, List.length_append, List.length_cons]
    omega

/-- A session that is not read in so many calls: another had two turns. -/
theorem exists_missed {first second third : ℕ × List Session} {rest : List (ℕ × List Session)}
    (hnodup : S.Nodup) (hfirst : s ∈ first.2) (hagain : s ∈ second.2 ++ third.2)
    (hbatch : ∀ r ∈ first :: second :: third :: rest, r.2.length ≤ 16)
    (hlength : 16 * (rest.length + 3) ≤ S.length) :
    ∃ session ∈ S, ∀ r ∈ first :: second :: third :: rest, session ∉ r.2 := by
  by_contra hall
  push Not at hall
  obtain ⟨before, after, hsplit⟩ := List.append_of_mem hagain
  have hsub : S ⊆ first.2 ++ (before ++ after) ++ rest.flatMap (·.2) := by
    intro session hsession
    obtain ⟨r, hr, hmem⟩ := hall session hsession
    have hagain : session ∈ second.2 ++ third.2 →
        session ∈ first.2 ++ (before ++ after) := by
      rw [hsplit]
      simp only [List.mem_append, List.mem_cons]
      rintro (h | rfl | h)
      · exact .inr (.inl h)
      · exact .inl hfirst
      · exact .inr (.inr h)
    simp only [List.mem_cons] at hr
    rcases hr with rfl | rfl | rfl | hr
    · exact List.mem_append_left _ (List.mem_append_left _ hmem)
    · exact List.mem_append_left _ (hagain (List.mem_append_left _ hmem))
    · exact List.mem_append_left _ (hagain (List.mem_append_right _ hmem))
    · exact List.mem_append_right _ (List.mem_flatMap.2 ⟨r, hr, hmem⟩)
  have hle := (List.subperm_of_subset hnodup hsub).length_le
  have hlen := congrArg List.length hsplit
  have hrest : (rest.flatMap (·.2)).length ≤ 16 * rest.length :=
    length_batches fun r hr => hbatch r (by simp [hr])
  have h₁ := hbatch first (by simp)
  have h₂ := hbatch second (by simp)
  have h₃ := hbatch third (by simp)
  simp only [List.length_append, List.length_cons] at hle hlen
  omega

/-- The sessions of a list. -/
def listed (i : ℕ) : Session where
  id := String.ofList (List.replicate i 'x')
  projectId := "p"
  title := ""
  agent := "claude"
  nativeId := some "native"
  status := .ready
  createdAt := 0

theorem listed_injective : Function.Injective fun i => (listed i).id := by
  intro i j hij
  have hchars := congrArg String.toList hij
  simpa [listed] using congrArg List.length hchars

/-- A cache that read sessions of the list at some time. -/
def readAt (l : List ℕ) (h : l.Nodup) (now : ℕ) : TitleRefreshCache where
  reads := l.map fun i => ((listed i).id, "native", now)
  nodup := by
    rw [List.map_map]
    exact h.map listed_injective

variable {ids : List ℕ} {h : ids.Nodup}

theorem mem_readAt {e : String × String × ℕ} :
    e ∈ (readAt ids h now).reads ↔ ∃ i ∈ ids, ((listed i).id, "native", now) = e :=
  List.mem_map

theorem lastRead_readAt {i : ℕ} :
    (readAt ids h now).lastRead (listed i) = if i ∈ ids then some now else none := by
  split
  · rename_i hi
    exact lastRead_eq_some.2 ⟨"native", rfl, mem_readAt.2 ⟨i, hi, rfl⟩⟩
  · rename_i hi
    rw [Option.eq_none_iff_forall_ne_some]
    intro t ht
    obtain ⟨native, -, hmem⟩ := lastRead_eq_some.1 ht
    obtain ⟨j, hj, heq⟩ := mem_readAt.1 hmem
    exact hi (listed_injective (congrArg (·.1) heq) ▸ hj)

/-- As many sessions as the cache has room for. -/
def many : List Session := (List.range limit).map listed

/-- All but the first sixteen were read. -/
def stale : TitleRefreshCache := readAt (List.range' 16 2032) List.nodup_range' 0

/-- Calls that are two seconds apart. -/
def polls : List Call := (List.range' 1 128).map fun k => ⟨k * interval, many⟩

theorem stale_turns : listed 0 ∈ (stale.select many 2000).1 ∧
    (listed 0 ∈ ((stale.select many 2000).2.select many 4000).1 ∨
      listed 0 ∈ (((stale.select many 2000).2.select many 4000).2.select many 6000).1) := by
  have hcons : many = listed 0 :: (List.range' 1 2047).map listed := by
    rw [many, limit, List.range_eq_range', List.range'_succ, List.map_cons]
  have hids : (many.map (·.id)).Nodup := by
    rw [many, List.map_map]
    exact List.nodup_range.map listed_injective
  have hsorted : many.Pairwise fun a b =>
      Rotation.earlier (stale.lastRead a) (stale.lastRead b) = true := by
    rw [many, List.pairwise_map]
    refine List.pairwise_lt_range.imp_of_mem fun {i j} _ hj hlt => ?_
    have hj := List.mem_range.1 hj
    unfold limit at hj
    rw [stale, lastRead_readAt, lastRead_readAt]
    by_cases hi : i ∈ List.range' 16 2032
    · rw [if_pos hi, if_pos (by simp only [List.mem_range'_1] at hi ⊢; omega)]
      rfl
    · rw [if_neg hi]
      rfl
  have hfresh : ∀ session ∈ many.take 16, ∀ e ∈ stale.reads, e.1 ≠ session.id := by
    intro session hsession e he hid
    rw [many, ← List.map_take, List.take_range] at hsession
    obtain ⟨i, hi, rfl⟩ := List.mem_map.1 hsession
    obtain ⟨j, hj, rfl⟩ := mem_readAt.1 he
    have hij : j = i := listed_injective hid
    simp only [List.mem_range'_1, List.mem_range] at hi hj
    omega
  have hold : stale.Old 2000 := by
    intro e he
    obtain ⟨i, -, rfl⟩ := mem_readAt.1 he
    exact Nat.le_refl 2000
  have hlength : stale.reads.length + 16 = limit := by
    rw [stale, readAt, List.length_map, List.length_range', limit]
  have hmany : many.length = limit := by rw [many, List.length_map, List.length_range]
  have hnative : ∀ session ∈ many, session.nativeId.isSome := by
    intro session hsession
    obtain ⟨i, -, rfl⟩ := List.mem_map.1 hsession
    rfl
  rw [hcons] at hids hnative hsorted hfresh hmany ⊢
  exact second_turn hids hnative hsorted hfresh (by rw [hmany]; unfold limit; omega) hlength hold
    (Nat.le_refl 4000) (Nat.le_refl 6000)

/-- A session that was just read is not read again in a single call, and as many sessions as the
cache has room for do not all have their turn. -/
theorem turns_missed :
    ((readAt [0] (List.nodup_singleton 0) 1).run [⟨2000, [listed 0]⟩]).1 = [(2000, [])] ∧
    stale.Over many ∧ stale.Rested many 2000 ∧
    many.length = limit ∧ polls.length = (many.length + 15) / 16 ∧
    polls.Pairwise (fun a b => a.now + interval ≤ b.now) ∧
    ∃ s ∈ many, ∀ r ∈ (stale.run polls).1, s ∉ r.2 := by
  have hmany : many.length = limit := by rw [many, List.length_map, List.length_range]
  have hids : (many.map (·.id)).Nodup := by
    rw [many, List.map_map]
    exact List.nodup_range.map listed_injective
  refine ⟨?_, ?_, ?_, hmany, ?_, ?_, ?_⟩
  · have hrecent : (readAt [0] (List.nodup_singleton 0) 1).claim (listed 0) 2000 =
        (false, readAt [0] (List.nodup_singleton 0) 1) :=
      claim_recent rfl (t := 1) rfl (by decide)
    simp only [run, select, List.mergeSort_singleton, claimFirst, hrecent]
  · intro e he
    obtain ⟨i, hi, rfl⟩ := mem_readAt.1 he
    simp only [List.mem_range'_1] at hi
    refine List.mem_map.2 ⟨listed i, List.mem_map.2 ⟨i, ?_, rfl⟩, rfl⟩
    rw [limit, List.mem_range]
    omega
  · intro s _ t ht
    obtain ⟨native, -, hmem⟩ := lastRead_eq_some.1 ht
    obtain ⟨i, -, heq⟩ := mem_readAt.1 hmem
    have ht : 0 = t := congrArg (·.2.2) heq
    unfold interval
    omega
  · rw [hmany, polls, List.length_map, List.length_range', limit]
  · rw [polls, List.pairwise_map]
    refine (List.pairwise_lt_range' (s := 1) (n := 128)).imp fun {i j} hlt => ?_
    show i * interval + interval ≤ j * interval
    unfold interval
    omega
  · have hpolls : polls = ⟨2000, many⟩ :: ⟨4000, many⟩ :: ⟨6000, many⟩ ::
        (List.range' 4 125).map fun k => ⟨k * interval, many⟩ := by
      rw [polls]
      simp only [List.range'_succ, List.map_cons, interval]
    obtain ⟨hfirst, hagain⟩ := stale_turns
    have hlog := @run_calls polls stale
    rw [hpolls] at hlog ⊢
    simp only [run] at hlog ⊢
    refine exists_missed hids.of_map hfirst (List.mem_append.2 hagain) (fun r hr => ?_) ?_
    · obtain ⟨call, -, -, -, hlength⟩ := hlog r hr
      exact hlength
    · refine Nat.le_of_eq ?_
      rw [run_length, List.length_map, List.length_range', hmany, limit]

/-- Forty sessions have their turn in three calls. -/
theorem forty_sessions : (List.range 40).map listed ⊆
    ((((readAt [] List.nodup_nil 0).run
      ((List.range 3).map fun k => ⟨k * interval, (List.range 40).map listed⟩)).1.drop 0).take 3).flatMap
      (·.2) := by
  have hall := @title_refresh (readAt [] List.nodup_nil 0) ((List.range 40).map listed)
    ((List.range 3).map fun k => ⟨k * interval, (List.range 40).map listed⟩)
    (by rw [List.map_map]; exact List.nodup_range.map listed_injective)
    (by simp [listed]) (by rw [List.length_map, List.length_range, limit]; omega)
    (fun e he => by cases he) (by simp)
    (by simp [List.range_succ, interval])
  refine fun s hs => List.mem_flatMap.2 (hall.2.2.2 ?_ 0 (fun call _ s _ t ht => ?_) ?_ s hs)
  · rw [List.length_map, List.length_range, limit]
    omega
  · obtain ⟨native, -, hmem⟩ := lastRead_eq_some.1 ht
    cases hmem
  · simp

end TitleRefreshCache

end LatteWork
