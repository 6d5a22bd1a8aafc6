import LatteWork.Proofs.StageRecovery
import Mathlib.Data.Finset.Card

/-!
# What recoveries remove

Every step of a recovery that removes something removes it from a marked stage that nobody uses. A
call removes no more than eight trees, and no more than 516 entries of each. A removal that ends
early leaves the marker, and a later call can take the rest.
-/

namespace LatteWork

namespace SkillStaging

open Skills (stageName lease)

def Act.process : Act → ℕ
  | .start p _ | .recover p _ | .use p _ | .fail p | .kill p => p

def Item.isEntry : Item → Bool
  | .entry _ => true
  | _ => false

variable {w w' : World} {p q : ℕ} {a : Act} {ph : Phase} {n m name : String} {c : Call} {d d' : Dir}

section effects

/-!
What a step does to a directory, to the log and to the other processes.
-/

@[simp]
theorem dir_setDir : (w.setDir m d).dir n = if n = m then some d else w.dir n := dir_update rfl

@[simp]
theorem dir_removeDir : (w.removeDir m).dir n = if n = m then none else w.dir n := by
  rw [dir_eq, dir_eq]
  unfold World.removeDir
  dsimp only
  rw [Function.update_apply]
  split_ifs <;> rfl

@[simp]
theorem dir_setPhase : (w.setPhase p ph).dir n = w.dir n := rfl

@[simp]
theorem dir_setFile {f : LeaseFile} : (w.setFile m f).dir n = w.dir n := rfl

@[simp]
theorem dir_unlock : (w.unlock p).dir n = w.dir n := rfl

@[simp]
theorem dir_log {item : Item} : (w.log p m item).dir n = w.dir n := rfl

@[simp]
theorem dir_stop : (w.stop p).dir n = w.dir n := rfl

theorem phase_setPhase : (w.setPhase p ph).phase q = if q = p then ph else w.phase q :=
  Function.update_apply _ _ _ _

@[simp]
theorem phase_setPhase_self : (w.setPhase p ph).phase p = ph := Function.update_self _ _ _

/-- The name has been used for a directory that is gone. -/
def Gone (w : World) (n : String) : Prop := n ∈ w.used ∧ w.dir n = none

theorem Gone.setDir (h : Gone w n) (hm : w.dir m = some d') : Gone (w.setDir m d) n := by
  refine ⟨h.1, ?_⟩
  have hne : n ≠ m := by
    rintro rfl
    rw [h.2] at hm
    cases hm
  rw [dir_setDir, if_neg hne]
  exact h.2

theorem Gone.removeDir (h : Gone w n) : Gone (w.removeDir m) n := by
  refine ⟨h.1, ?_⟩
  rw [dir_removeDir, h.2, ite_self]

theorem Gone.recover (h : Gone w n) : Gone (w.recover p name) n := by
  unfold World.recover
  split
  · dsimp only
    split_ifs <;> exact h
  · split <;> exact h
  · exact h
  · split_ifs <;> exact h
  · split_ifs <;> exact h
  · split
    · exact h
    · rename_i hdir
      split_ifs <;> first | exact h | exact h.setDir hdir
  · split
    · exact h
    · rename_i hdir
      dsimp only
      split_ifs <;> first | exact h | exact h.setDir hdir
  · split
    · exact h
    · split_ifs
      · exact h.removeDir
      · exact h
  · exact h

theorem Gone.use (h : Gone w n) (u : World.Use) : Gone (w.use p u) n := by
  unfold World.use
  split
  · rename_i m c hp
    split_ifs with hm
    · have hne : n ≠ m := by
        rintro rfl
        exact hm.2 h.1
      refine ⟨List.mem_cons_of_mem _ h.1, ?_⟩
      exact (dir_update (w := w) rfl).trans ((if_neg hne).trans h.2)
    · exact h
  · split
    · rename_i hdir
      exact h.setDir hdir
    · exact h
  · split_ifs <;> exact h
  · exact h
  all_goals first | exact h | skip
  · split
    · rename_i hdir
      exact h.setDir hdir
    · exact h
  · split
    · rename_i hdir
      exact h.setDir hdir
    · exact h
  · split
    · rename_i hdir
      split_ifs
      · exact h.setDir hdir
      · exact h
    · exact h
  · split
    · rename_i hdir
      exact h.setDir hdir
    · exact h
  · split
    · split_ifs
      · exact h.removeDir
      · exact h
    · exact h
  · split_ifs <;> exact h

/-- A directory that is gone does not come back. -/
theorem Gone.step (h : Gone w n) : Gone (step w a) n := by
  cases a with
  | start p front =>
    unfold SkillStaging.step
    dsimp only
    split <;> exact h
  | recover p name => exact h.recover
  | use p u => exact h.use u
  | fail p =>
    show Gone (w.fail p) n
    unfold World.fail
    split <;> exact h
  | kill p => exact h

/-- A recovery changes no other process. -/
theorem phase_recover (hq : q ≠ p) : (w.recover p name).phase q = w.phase q := by
  have hset (w' : World) (ph : Phase) : (w'.setPhase p ph).phase q = w'.phase q :=
    Function.update_of_ne hq _ _
  unfold World.recover
  split
  · dsimp only
    split_ifs <;> first | rfl | exact hset _ _
  · split <;> exact hset _ _
  · exact hset _ _
  · split_ifs <;> exact hset _ _
  · split_ifs <;> exact hset _ _
  · split
    · exact hset _ _
    · split_ifs <;> first | rfl | exact hset _ _
  · split
    · exact hset _ _
    · dsimp only
      split_ifs <;> exact hset _ _
  · split
    · exact hset _ _
    · split_ifs <;> exact hset _ _
  · rfl

theorem phase_use (hq : q ≠ p) (u : World.Use) : (w.use p u).phase q = w.phase q := by
  have hset (w' : World) (ph : Phase) : (w'.setPhase p ph).phase q = w'.phase q :=
    Function.update_of_ne hq _ _
  unfold World.use
  split
  · split_ifs <;> first | rfl | exact hset _ _
  · split <;> exact hset _ _
  · split_ifs <;> exact hset _ _
  · exact hset _ _
  · split <;> rfl
  · split <;> rfl
  · exact hset _ _
  · split
    · split_ifs <;> rfl
    · rfl
  · split <;> rfl
  · split
    · split_ifs <;> rfl
    · rfl
  · split_ifs <;> first | rfl | exact hset _ _
  · rfl

/-- A step is of one process. -/
theorem phase_step (hq : q ≠ a.process) : (step w a).phase q = w.phase q := by
  have hset (w' : World) (p : ℕ) (hp : q ≠ p) (ph : Phase) : (w'.setPhase p ph).phase q = w'.phase q :=
    Function.update_of_ne hp _ _
  cases a with
  | start p front =>
    unfold SkillStaging.step
    dsimp only
    split
    · exact hset _ _ hq _
    · rfl
  | recover p name => exact phase_recover hq
  | use p u => exact phase_use hq u
  | fail p =>
    show (w.fail p).phase q = _
    unfold World.fail
    split <;> first | rfl | exact hset _ _ hq _
  | kill p => exact hset _ _ hq _

theorem removed_use (u : World.Use) : (w.use p u).removed = w.removed := by
  unfold World.use
  split
  · split_ifs <;> rfl
  · split <;> rfl
  · split_ifs <;> rfl
  · rfl
  · split <;> rfl
  · split <;> rfl
  · rfl
  · split
    · split_ifs <;> rfl
    · rfl
  · split <;> rfl
  · split
    · split_ifs <;> rfl
    · rfl
  · split_ifs <;> rfl
  · rfl

theorem removed_fail : (w.fail p).removed = w.removed := by
  unfold World.fail
  split <;> rfl

end effects

section lawful

/-- What a recovery may remove: a part of a marked stage that it has locked and that nobody uses, and
the lease of it behind the rest. -/
structure Lawful (w : World) (r : Removal) : Prop where
  stage : ∃ c, (w.phase r.process).target = some (c, r.name) ∧ stageName c.front r.name = true
  marked : (w.file r.name).content = Skills.marker
  locked : (w.file r.name).holder = some r.process
  unused : ∀ q, (w.phase q).owns ≠ some r.name
  item : ∃ d, w.dir r.name = some d ∧ match r.item with
    | .entry path => d.lease = .regular ∧ path ≠ [] ∧ (d.tree.node path).isSome
    | .lease => d.lease = .regular ∧ d.empty
    | .root => d.lease = .none ∧ d.empty

theorem Inv.lawful {item : Item} (h : Inv w) (hheld : (w.phase p).holds = some n)
    (hown : (w.phase p).owns = none) (htarget : (w.phase p).target = some (c, n))
    (hmarker : (w.file n).content = Skills.marker) (hitem : ∃ d, w.dir n = some d ∧ match item with
      | .entry path => d.lease = .regular ∧ path ≠ [] ∧ (d.tree.node path).isSome
      | .lease => d.lease = .regular ∧ d.empty
      | .root => d.lease = .none ∧ d.empty) : Lawful w ⟨p, n, item⟩ where
  stage := ⟨c, htarget, (h.phase p).stage c n htarget⟩
  marked := hmarker
  locked := (h.phase p).holds n hheld
  unused _ := h.not_owned hheld hown hmarker
  item := hitem

theorem not_logged {r : Removal} {l : List Removal} {P : Prop} (h : l = r :: l) : P :=
  absurd (congrArg List.length h) (by simp)

/-- What has an entry has its lease. -/
theorem Inv.regular {stack path : List String} {pending : Option (String × Bool)} {count : ℕ} (h : Inv w)
    (hp : w.phase p = .removing c n stack pending count) (hdir : w.dir n = some d) (hpath : path ≠ [])
    (hnode : (d.tree.node path).isSome) : d.lease = .regular := by
  rcases h.removing_dir hp hdir with hregular | ⟨-, hempty⟩
  · exact hregular
  · obtain ⟨child, rest, rfl⟩ := List.exists_cons_of_ne_nil hpath
    have hmem : child ∈ d.tree.names [] := by
      rw [PathTree.mem_names, List.nil_append]
      rcases eq_or_ne rest [] with rfl | hrest
      · exact hnode
      · have hfolder : d.tree.isFolder [child] = true := PathTree.isFolder_of_below hrest hnode
        obtain ⟨v, hv, -⟩ := PathTree.isFolder_iff.1 hfolder
        exact Option.isSome_iff_exists.2 ⟨v, PathTree.node_eq_some.2 hv⟩
    rw [hempty] at hmem
    cases hmem

theorem Inv.recover_lawful {r : Removal} (h : Inv w)
    (hr : (w.recover p name).removed = r :: w.removed) : Lawful w r := by
  unfold World.recover at hr
  split at hr
  · dsimp only at hr
    split_ifs at hr <;> exact not_logged hr
  · split at hr <;> exact not_logged hr
  · exact not_logged hr
  · split_ifs at hr <;> exact not_logged hr
  · split_ifs at hr <;> exact not_logged hr
  · rename_i c n stack count hp
    have hmarker : (w.file n).content = Skills.marker := (Fits.of_phase h hp).content n rfl
    split at hr
    · exact not_logged hr
    · rename_i d hdir
      obtain ⟨hstack, -⟩ := ((Fits.of_phase h hp).place n rfl).2 d hdir
      split_ifs at hr with hlease hmem hcount hleft hroot hnone hlink
      all_goals first | exact not_logged hr | skip
      · -- the lease
        obtain ⟨rfl, -⟩ := List.cons.inj hr
        refine h.lawful (by rw [hp]; rfl) (by rw [hp]; rfl) (by rw [hp]; rfl) hmarker ⟨d, hdir, ?_⟩
        have hempty : d.empty := by
          rw [hroot] at hleft
          exact not_not.1 hleft
        rcases h.removing_dir hp hdir with hregular | ⟨hn, -⟩
        · exact ⟨hregular, hempty⟩
        · exact absurd hn hnone
      · -- a directory that is empty
        obtain ⟨rfl, -⟩ := List.cons.inj hr
        refine h.lawful (by rw [hp]; rfl) (by rw [hp]; rfl) (by rw [hp]; rfl) hmarker ⟨d, hdir, ?_⟩
        have hnode : (d.tree.node stack).isSome := by
          obtain ⟨v, hv, -⟩ := PathTree.isFolder_iff.1 hstack
          exact Option.isSome_iff_exists.2 ⟨v, PathTree.node_eq_some.2 hv⟩
        exact ⟨h.regular hp hdir hroot hnode, hroot, hnode⟩
  · rename_i c n stack child isDir count hp
    have hmarker : (w.file n).content = Skills.marker := (Fits.of_phase h hp).content n rfl
    split at hr
    · exact not_logged hr
    · rename_i d hdir
      dsimp only at hr
      split_ifs at hr with hkind hdepth hlink hfolder hlink hgone
      all_goals first | exact not_logged hr | skip
      obtain ⟨rfl, -⟩ := List.cons.inj hr
      refine h.lawful (by rw [hp]; rfl) (by rw [hp]; rfl) (by rw [hp]; rfl) hmarker ⟨d, hdir, ?_⟩
      have hpath : stack ++ [child] ≠ [] := by simp
      have hnode : (d.tree.node (stack ++ [child])).isSome := by
        have := (not_or.1 hgone).1
        rw [Option.isNone_iff_eq_none] at this
        exact Option.isSome_iff_ne_none.2 this
      exact ⟨h.regular hp hdir hpath hnode, hpath, hnode⟩
  · rename_i c n hp
    have hmarker : (w.file n).content = Skills.marker := (Fits.of_phase h hp).content n rfl
    split at hr
    · exact not_logged hr
    · rename_i d hdir
      split_ifs at hr with hempty
      · obtain ⟨rfl, -⟩ := List.cons.inj hr
        exact h.lawful (by rw [hp]; rfl) (by rw [hp]; rfl) (by rw [hp]; rfl) hmarker ⟨d, hdir, hempty⟩
      · exact not_logged hr
  · exact not_logged hr

/-- A removal that ends keeps what is left as it was, the marker with it. -/
structure Resumable (w : World) (n : String) (d : Dir) : Prop where
  dir : w.dir n = some d
  lease : d.lease = .regular
  marked : (w.file n).content = Skills.marker
  free : (w.file n).holder = none

theorem Inv.resumable {stack : List String} {pending : Option (String × Bool)} {count : ℕ} (h : Inv w)
    (hp : w.phase p = .removing c n stack pending count) (hdir : w.dir n = some d) (hleft : ¬d.empty) :
    Resumable (w.stop p) n d := by
  have hfits := Fits.of_phase h hp
  refine ⟨hdir, ?_, ?_, ?_⟩
  · rcases h.removing_dir hp hdir with hregular | ⟨-, hempty⟩
    · exact hregular
    · exact absurd hempty hleft
  · show ((w.unlock p).file n).content = Skills.marker
    rw [unlock_content]
    exact hfits.content n rfl
  · have hheld := hfits.holds n rfl
    simp [World.stop, World.unlock, World.setPhase, hheld]

/-- However a removal ends with something left, the process does no more than end. -/
theorem Inv.stopped {stack : List String} {pending : Option (String × Bool)} {count : ℕ} (h : Inv w)
    (hp : w.phase p = .removing c n stack pending count) (hend : (SkillStaging.step w a).phase p = .ended) :
    SkillStaging.step w a = w.stop p := by
  have hprocess : p = a.process := by
    by_contra hne
    rw [phase_step hne, hp] at hend
    cases hend
  have hcare : Careful w a := by
    have hspared : Spared w p := spared_of_ne fun n => by rw [hp]; exact nofun
    rw [hprocess] at hspared
    cases a <;> first | exact hspared | trivial
  have hstrayed := (h.step hcare).strayed
  have hstill (hrest : SkillStaging.step w a = w) : SkillStaging.step w a = w.stop p := by
    rw [hrest, hp] at hend
    cases hend
  cases a with
  | start r front =>
    obtain rfl : p = r := hprocess
    refine hstill ?_
    unfold SkillStaging.step
    dsimp only
    rw [hp]
  | use r u =>
    obtain rfl : p = r := hprocess
    refine hstill ?_
    show w.use p u = w
    unfold World.use
    rw [hp]
    cases u <;> rfl
  | fail r =>
    obtain rfl : p = r := hprocess
    show w.fail p = _
    unfold World.fail
    rw [hp]
  | kill r =>
    obtain rfl : p = r := hprocess
    rfl
  | recover r name =>
    obtain rfl : p = r := hprocess
    replace hend : (w.recover p name).phase p = .ended := hend
    replace hstrayed : (w.recover p name).strayed = false := hstrayed
    show w.recover p name = _
    have hset {w' : World} {ph : Phase} (hne : ph ≠ .ended) : (w'.setPhase p ph).phase p ≠ .ended := by
      rwa [phase_setPhase_self]
    revert hend hstrayed
    unfold World.recover
    rw [hp]
    cases pending with
    | none =>
      dsimp only
      split
      · exact fun _ _ => rfl
      · split_ifs
        · exact fun hend => by rw [hp] at hend; cases hend
        · exact fun _ _ => rfl
        · exact fun hend => absurd hend (hset nofun)
        · exact fun hend => by rw [hp] at hend; cases hend
        · exact fun _ _ => rfl
        · exact fun hend => absurd hend (hset nofun)
        · exact fun _ hstrayed => by cases hstrayed
        · exact fun hend => absurd hend (hset nofun)
    | some entry =>
      obtain ⟨child, isDir⟩ := entry
      dsimp only
      split
      · exact fun _ _ => rfl
      · split_ifs
        · exact fun _ _ => rfl
        · exact fun _ hstrayed => by cases hstrayed
        · exact fun hend => absurd hend (hset nofun)
        · exact fun _ _ => rfl
        · exact fun _ hstrayed => by cases hstrayed
        · exact fun _ _ => rfl
        · exact fun hend => absurd hend (hset nofun)

end lawful

section tallies

/-- The trees that a call has removed something of. -/
def touched (l : List Removal) (p : ℕ) : Finset String :=
  ((l.filter fun r => r.process = p).map fun r => r.name).toFinset

/-- How many entries a call has removed of a tree. -/
def taken (l : List Removal) (p : ℕ) (n : String) : ℕ :=
  l.countP fun r => r.process = p && r.name = n && r.item.isEntry

variable {l : List Removal} {item : Item}

theorem touched_cons : touched (⟨p, n, item⟩ :: l) p = insert n (touched l p) := by
  simp [touched]

theorem touched_cons_of_ne (h : q ≠ p) : touched (⟨p, n, item⟩ :: l) q = touched l q := by
  simp [touched, h.symm]

theorem taken_cons : taken (⟨p, n, item⟩ :: l) q m =
    taken l q m + if p = q ∧ n = m ∧ item.isEntry = true then 1 else 0 := by
  unfold taken
  rw [List.countP_cons]
  simp only [Bool.and_eq_true, decide_eq_true_eq, and_assoc]

theorem taken_eq_zero (h : n ∉ touched l p) : taken l p n = 0 := by
  refine List.countP_eq_zero.2 fun r hr htaken => h ?_
  simp only [Bool.and_eq_true, decide_eq_true_eq] at htaken
  simp only [touched, List.mem_toFinset, List.mem_map, List.mem_filter, decide_eq_true_eq]
  exact ⟨r, ⟨hr, htaken.1.1⟩, htaken.1.2⟩

/-- The trees of a call but one are gone, and it has counted them. -/
structure Spent (w : World) (p : ℕ) (c : Call) (trees : Finset String) : Prop where
  card : trees.card ≤ c.recovered
  gone : ∀ m ∈ trees, Gone w m

/-- What a call has removed so far. -/
def Phase.tally (w : World) (p : ℕ) : Phase → Prop
  | idle => touched w.removed p = ∅
  | scanning c => Spent w p c (touched w.removed p) ∧ c.recovered ≤ 8
  | found c n | opened c n | measured c n | locked c n =>
    Spent w p c (touched w.removed p) ∧ c.recovered < 8 ∧ n ∉ touched w.removed p
  | removing c n stack pending count =>
    Spent w p c ((touched w.removed p).erase n) ∧ c.recovered < 8 ∧
      taken w.removed p n + stack.length + pending.toList.length ≤ count ∧ count ≤ 516
  | unmarked c n => Spent w p c ((touched w.removed p).erase n) ∧ c.recovered < 8
  | _ => (touched w.removed p).card ≤ 8

structure Tallied (w : World) (p : ℕ) : Prop where
  taken : ∀ n, taken w.removed p n ≤ 516
  phase : (w.phase p).tally w p

theorem tally_card (h : ph.tally w p) : (touched w.removed p).card ≤ 8 := by
  have herase (n : String) := Finset.pred_card_le_card_erase (s := touched w.removed p) (a := n)
  cases ph with
  | idle =>
    rw [show touched w.removed p = ∅ from h]
    exact Nat.zero_le _
  | scanning c => exact h.1.card.trans h.2
  | found | opened | measured | locked => exact h.1.card.trans h.2.1.le
  | removing c n =>
    have := h.1.card
    have := herase n
    have := h.2.1
    omega
  | unmarked c n =>
    have := h.1.card
    have := herase n
    have := h.2
    omega
  | _ => exact h

/-- What others do makes no difference. -/
theorem tally_keep (hremoved : touched w'.removed p = touched w.removed p)
    (htaken : ∀ n, taken w'.removed p n = taken w.removed p n) (hgone : ∀ n, Gone w n → Gone w' n)
    (h : ph.tally w p) : ph.tally w' p := by
  have hspent {c : Call} {trees : Finset String} (hs : Spent w p c trees) : Spent w' p c trees :=
    ⟨hs.card, fun m hm => hgone m (hs.gone m hm)⟩
  cases ph <;> simp only [Phase.tally, hremoved, htaken] at h ⊢
  case idle => exact h
  case scanning => exact ⟨hspent h.1, h.2⟩
  case found | opened | measured | locked | removing | unmarked => exact ⟨hspent h.1, h.2⟩
  all_goals exact h

theorem removed_recover : (w.recover p name).removed = w.removed ∨
    ∃ n item, (w.recover p name).removed = ⟨p, n, item⟩ :: w.removed := by
  unfold World.recover
  split
  · dsimp only
    split_ifs <;> exact .inl rfl
  · split <;> exact .inl rfl
  · exact .inl rfl
  · split_ifs <;> exact .inl rfl
  · split_ifs <;> exact .inl rfl
  · split
    · exact .inl rfl
    · split_ifs <;> first | exact .inl rfl | exact .inr ⟨_, _, rfl⟩
  · split
    · exact .inl rfl
    · dsimp only
      split_ifs <;> first | exact .inl rfl | exact .inr ⟨_, _, rfl⟩
  · split
    · exact .inl rfl
    · split_ifs <;> first | exact .inl rfl | exact .inr ⟨_, _, rfl⟩
  · exact .inl rfl

/-- Only a recovery removes what is logged, and as its own. -/
theorem removed_step : (step w a).removed = w.removed ∨
    ∃ n item, (step w a).removed = ⟨a.process, n, item⟩ :: w.removed := by
  cases a with
  | start p front =>
    unfold step
    dsimp only
    split <;> exact .inl rfl
  | recover p name => exact removed_recover
  | use p u => exact .inl (removed_use u)
  | fail p => exact .inl removed_fail
  | kill p => exact .inl rfl

theorem Tallied.other (h : Tallied w q) (hq : q ≠ a.process) : Tallied (step w a) q := by
  have htouched : touched (step w a).removed q = touched w.removed q := by
    rcases removed_step (w := w) (a := a) with hr | ⟨n, item, hr⟩ <;> rw [hr]
    exact touched_cons_of_ne hq
  have htaken (n : String) : SkillStaging.taken (step w a).removed q n = SkillStaging.taken w.removed q n := by
    rcases removed_step (w := w) (a := a) with hr | ⟨m, item, hr⟩ <;> rw [hr]
    rw [taken_cons, if_neg fun hm => hq hm.1.symm, add_zero]
  refine ⟨fun n => htaken n ▸ h.taken n, ?_⟩
  rw [phase_step hq]
  exact tally_keep htouched htaken (fun _ hn => hn.step) h.phase

/-- A call goes on, or ends, without a removal. -/
theorem Tallied.next (h : Tallied w p) (hremoved : w'.removed = w.removed)
    (hphase : (w'.phase p).tally w' p) : Tallied w' p :=
  ⟨fun n => hremoved ▸ h.taken n, hphase⟩

/-- The recovery of a call is over. -/
def Phase.late : Phase → Bool
  | made _ | leased _ | held _ | live _ | dropping .. | ended => true
  | _ => false

theorem tally_late (hlate : ph.late = true) (h : (touched w.removed p).card ≤ 8) : ph.tally w p := by
  cases ph <;> first | exact h | cases hlate

theorem Tallied.late (h : Tallied w p) (hremoved : w'.removed = w.removed)
    (hlate : (w'.phase p).late = true) : Tallied w' p := by
  refine h.next hremoved (tally_late hlate ?_)
  rw [hremoved]
  exact tally_card h.phase

theorem Tallied.stop (h : Tallied w p) : Tallied (w.stop p) p := by
  refine h.late rfl ?_
  rw [World.stop, phase_setPhase_self]
  rfl

theorem late_use (u : World.Use) : ((w.use p u).phase p).late = true ∨ w.use p u = w := by
  have hset {w' : World} {ph : Phase} (hlate : ph.late = true) : ((w'.setPhase p ph).phase p).late = true := by
    rwa [phase_setPhase_self]
  have hkept {ph : Phase} (hp : w.phase p = ph) (hlate : ph.late = true) : (w.phase p).late = true := by
    rwa [hp]
  unfold World.use
  split
  · split_ifs
    · exact .inl (hset rfl)
    · exact .inr rfl
  · split <;> exact .inl (hset rfl)
  · split_ifs <;> exact .inl (hset rfl)
  · refine .inl (hset ?_)
    split_ifs <;> rfl
  · rename_i hp
    split <;> exact .inl (hkept hp rfl)
  · rename_i hp
    split <;> exact .inl (hkept hp rfl)
  · exact .inl (hset rfl)
  · rename_i hp
    split
    · split_ifs <;> exact .inl (hkept hp rfl)
    · exact .inl (hkept hp rfl)
  · rename_i hp
    split <;> exact .inl (hkept hp rfl)
  · rename_i hp
    split
    · split_ifs <;> exact .inl (hkept hp rfl)
    · exact .inl (hkept hp rfl)
  · split_ifs
    · exact .inl (hset rfl)
    · exact .inr rfl
  · exact .inr rfl

theorem Tallied.use (h : Tallied w p) (u : World.Use) : Tallied (w.use p u) p := by
  rcases late_use (w := w) (p := p) u with hlate | hsame
  · exact h.late (removed_use u) hlate
  · rwa [hsame]

theorem Tallied.fail (h : Tallied w p) : Tallied (w.fail p) p := by
  unfold World.fail
  split
  · exact h
  · exact h
  all_goals first | exact h.stop | skip
  all_goals
    refine h.late rfl ?_
    rw [phase_setPhase_self]
    rfl

/-- A call goes on without a removal. -/
theorem Tallied.goes (h : Tallied w p) (hremoved : w'.removed = w.removed)
    (hgone : ∀ n, Gone w n → Gone w' n) (hph : ph.tally w p) : Tallied (w'.setPhase p ph) p := by
  refine h.next hremoved ?_
  rw [phase_setPhase_self]
  exact tally_keep (congrArg (touched · p) hremoved) (fun n => congrArg (SkillStaging.taken · p n) hremoved)
    hgone hph

/-- A call goes on with a removal. -/
theorem Tallied.takes (h : Tallied w p) (hremoved : w'.removed = ⟨p, n, item⟩ :: w.removed)
    (hspace : item.isEntry = true → SkillStaging.taken w.removed p n < 516) (hph : (w'.phase p).tally w' p) :
    Tallied w' p := by
  refine ⟨fun m => ?_, hph⟩
  rw [hremoved, taken_cons]
  have := h.taken m
  split_ifs with hm
  · obtain ⟨-, rfl, hentry⟩ := hm
    exact hspace hentry
  · omega

/-- What is removed of a tree that a call is at does not count against the others. -/
theorem Spent.takes (h : Spent w p c ((touched w.removed p).erase n))
    (hremoved : w'.removed = ⟨p, n, item⟩ :: w.removed) (hgone : ∀ n, Gone w n → Gone w' n) :
    Spent w' p c ((touched w'.removed p).erase n) := by
  rw [hremoved, touched_cons, Finset.erase_insert_eq_erase]
  exact ⟨h.card, fun m hm => hgone m (h.gone m hm)⟩

theorem Tallied.recover (h : Tallied w p) (hinv : Inv w) : Tallied (w.recover p name) p := by
  have hphase := h.phase
  have hid : ∀ n, Gone w n → Gone w n := fun _ hn => hn
  unfold World.recover
  split
  · rename_i c hp
    rw [hp] at hphase
    obtain ⟨hspent, hle⟩ := hphase
    dsimp only
    split_ifs with hend hstage
    · exact h
    · refine h.goes rfl hid ⟨⟨hspent.card, hspent.gone⟩, ?_, fun hmem => ?_⟩
      · have := (not_or.1 hend).2
        show c.recovered < 8
        omega
      · have hdir := hstage.2
        rw [(hspent.gone _ hmem).2] at hdir
        cases hdir
    · exact h.goes rfl hid ⟨⟨hspent.card, hspent.gone⟩, hle⟩
  · rename_i c n hp
    rw [hp] at hphase
    have hback : (Phase.scanning c).tally w p := ⟨hphase.1, hphase.2.1.le⟩
    split
    · split_ifs
      · exact h.goes rfl hid hphase
      · exact h.goes rfl hid hback
    · exact h.goes rfl hid hback
  · rename_i c n hp
    rw [hp] at hphase
    have hback : (Phase.scanning c).tally w p := ⟨hphase.1, hphase.2.1.le⟩
    split_ifs
    · exact h.goes rfl hid hphase
    · exact h.goes rfl hid hback
  · rename_i c n hp
    rw [hp] at hphase
    have hback : (Phase.scanning c).tally w p := ⟨hphase.1, hphase.2.1.le⟩
    split_ifs
    · exact h.goes rfl hid hphase
    · exact h.goes rfl hid hback
  · rename_i c n hp
    rw [hp] at hphase
    obtain ⟨hspent, hlt, hnew⟩ := hphase
    split_ifs
    · exact h.goes rfl hid ⟨hspent, hlt.le⟩
    · refine h.goes rfl hid ⟨?_, hlt, ?_, Nat.zero_le _⟩
      · rwa [Finset.erase_eq_of_notMem hnew]
      · rw [taken_eq_zero hnew]
        exact Nat.le_refl _
    · exact h.stop
  · rename_i c n stack count hp
    rw [hp] at hphase
    obtain ⟨hspent, hlt, hcount, hmost⟩ := hphase
    simp only [Option.toList_none, List.length_nil] at hcount
    split
    · exact h.stop
    · rename_i d hdir
      split_ifs with hlease hmem hfull hleft hroot hnone hlink
      · exact h
      · exact h.stop
      · refine h.goes rfl hid ⟨hspent, hlt, ?_, by omega⟩
        simp only [Option.toList_some, List.length_singleton]
        omega
      · exact h
      · exact h.stop
      · refine h.takes rfl nofun ?_
        rw [phase_setPhase_self]
        exact ⟨hspent.takes rfl fun _ hn => hn.setDir hdir, hlt⟩
      · exact h.late rfl (by rw [World.stop]; exact (congrArg Phase.late phase_setPhase_self).trans rfl)
      · have hpos : 0 < stack.length := List.length_pos_iff.2 hroot
        refine h.takes rfl (fun _ => by omega) ?_
        rw [phase_setPhase_self]
        refine ⟨hspent.takes rfl fun _ hn => hn.setDir hdir, hlt, ?_, hmost⟩
        show SkillStaging.taken (⟨p, n, .entry stack⟩ :: w.removed) p n + stack.dropLast.length + 0 ≤ count
        rw [taken_cons, if_pos ⟨rfl, rfl, rfl⟩, List.length_dropLast]
        omega
  · rename_i c n stack child isDir count hp
    rw [hp] at hphase
    obtain ⟨hspent, hlt, hcount, hmost⟩ := hphase
    simp only [Option.toList_some, List.length_singleton] at hcount
    split
    · exact h.stop
    · rename_i d hdir
      dsimp only
      split_ifs
      · exact h.stop
      · exact h.late rfl (by rw [World.stop]; exact (congrArg Phase.late phase_setPhase_self).trans rfl)
      · refine h.goes rfl hid ⟨hspent, hlt, ?_, hmost⟩
        simp only [Option.toList_none, List.length_nil, List.length_append, List.length_singleton]
        omega
      · exact h.stop
      · exact h.late rfl (by rw [World.stop]; exact (congrArg Phase.late phase_setPhase_self).trans rfl)
      · exact h.stop
      · refine h.takes rfl (fun _ => by omega) ?_
        rw [phase_setPhase_self]
        refine ⟨hspent.takes rfl fun _ hn => hn.setDir hdir, hlt, ?_, hmost⟩
        show SkillStaging.taken (⟨p, n, .entry (stack ++ [child])⟩ :: w.removed) p n + stack.length + 0 ≤ count
        rw [taken_cons, if_pos ⟨rfl, rfl, rfl⟩]
        omega
  · rename_i c n hp
    rw [hp] at hphase
    obtain ⟨hspent, hlt⟩ := hphase
    split
    · exact h.stop
    · rename_i d hdir
      split_ifs
      · refine h.takes rfl nofun ?_
        rw [phase_setPhase_self]
        refine ⟨⟨?_, fun m hm => ?_⟩, hlt⟩
        · show (touched (⟨p, n, .root⟩ :: w.removed) p).card ≤ c.recovered + 1
          have := Finset.pred_card_le_card_erase (s := insert n (touched w.removed p)) (a := n)
          rw [Finset.erase_insert_eq_erase] at this
          have := hspent.card
          rw [touched_cons]
          omega
        · have hused : n ∈ w.used := (Fits.of_phase hinv hp).used n rfl
          have hgone : Gone (w.removeDir n) n := ⟨hused, by rw [dir_removeDir, if_pos rfl]⟩
          replace hm : m ∈ touched (⟨p, n, .root⟩ :: w.removed) p := hm
          rw [touched_cons, Finset.mem_insert] at hm
          by_cases hmn : m = n
          · rw [hmn]
            exact hgone
          · exact (hspent.gone m (Finset.mem_erase.2 ⟨hmn, hm.resolve_left hmn⟩)).removeDir
      · exact h.stop
  · exact h

theorem Tallied.step (h : Tallied w p) (hinv : Inv w) : Tallied (step w a) p := by
  by_cases hp : p = a.process
  · cases a with
    | start r front =>
      obtain rfl : p = r := hp
      unfold SkillStaging.step
      dsimp only
      split
      · rename_i hidle
        have hphase := h.phase
        rw [hidle] at hphase
        have hnone : touched w.removed p = ∅ := hphase
        refine h.goes rfl (fun _ hn => hn) ⟨⟨?_, fun m hm => ?_⟩, Nat.zero_le _⟩
        · rw [hnone]
          exact Nat.zero_le _
        · rw [hnone] at hm
          exact absurd hm (Finset.notMem_empty m)
      · exact h
    | recover r name =>
      obtain rfl : p = r := hp
      exact h.recover hinv
    | use r u =>
      obtain rfl : p = r := hp
      exact h.use u
    | fail r =>
      obtain rfl : p = r := hp
      exact h.fail
    | kill r =>
      obtain rfl : p = r := hp
      exact h.stop
  · exact h.other hp

end tallies

section resumes

variable {stack path : List String} {child : String} {isDir : Bool} {count : ℕ}

/-- What a recovery can remove of one directory in one call. -/
structure Within (d : Dir) : Prop where
  depth : ∀ path, d.tree.isFolder path = true → path.length ≤ 10
  count : d.tree.entries.length ≤ 517

/-- A call can get from one state to another with no other process in between. -/
def Reaches (p : ℕ) (w w' : World) : Prop :=
  ∃ names : List String, Runs.run step w (names.map (Act.recover p)) = w'

theorem Reaches.refl : Reaches p w w := ⟨[], rfl⟩

theorem Reaches.trans {w₁ w₂ w₃ : World} (h₁ : Reaches p w₁ w₂) (h₂ : Reaches p w₂ w₃) :
    Reaches p w₁ w₃ := by
  obtain ⟨names₁, rfl⟩ := h₁
  obtain ⟨names₂, rfl⟩ := h₂
  exact ⟨names₁ ++ names₂, by rw [List.map_append, Runs.run_append]⟩

theorem Reaches.next (name : String) (h : w.recover p name = w') : Reaches p w w' := ⟨[name], h⟩

theorem recover_reads (hp : w.phase p = .removing c n stack none count) (hdir : w.dir n = some d)
    (hchild : child ∈ d.tree.names stack) (hcount : count < 516) : w.recover p child =
      w.setPhase p (.removing c n stack (some (child, d.tree.isFolder (stack ++ [child]))) (count + 1)) := by
  have hlease : ¬(stack = [] ∧ child = lease) := by
    rintro ⟨rfl, rfl⟩
    rw [PathTree.mem_names, List.nil_append, d.apart] at hchild
    cases hchild
  unfold World.recover
  rw [hp]
  dsimp only
  rw [hdir]
  dsimp only
  rw [if_neg hlease, if_pos hchild, if_neg (by omega)]

theorem recover_enters (name : String) (hp : w.phase p = .removing c n stack (some (child, true)) count)
    (hdir : w.dir n = some d) (hfolder : d.tree.isFolder (stack ++ [child]) = true)
    (hdepth : (stack ++ [child]).length ≤ 10) :
    w.recover p name = w.setPhase p (.removing c n (stack ++ [child]) none count) := by
  unfold World.recover
  rw [hp]
  dsimp only
  rw [hdir]
  dsimp only
  rw [if_pos rfl, if_neg (by omega), if_neg (by rw [not_throughLink hfolder]; exact nofun), if_pos hfolder]

theorem recover_takes (name : String) (hp : w.phase p = .removing c n stack (some (child, false)) count)
    (hdir : w.dir n = some d) (hstack : d.tree.isFolder stack = true)
    (hnode : (d.tree.node (stack ++ [child])).isSome)
    (hfile : d.tree.isFolder (stack ++ [child]) = false) : w.recover p name =
      ((w.setDir n (d.remove (stack ++ [child]))).log p n (.entry (stack ++ [child]))).setPhase p
        (.removing c n stack none count) := by
  have hgone : ¬((d.tree.node (stack ++ [child])).isNone = true ∨ d.tree.isFolder (stack ++ [child]) = true) := by
    rw [hfile, Option.isNone_iff_eq_none]
    rintro (hnone | htrue)
    · rw [hnone] at hnode
      cases hnode
    · cases htrue
  unfold World.recover
  rw [hp]
  dsimp only
  rw [hdir]
  dsimp only
  rw [if_neg nofun, if_neg (by rw [not_throughLink hstack]; exact nofun), if_neg hgone]

theorem recover_leaves (name : String) (hp : w.phase p = .removing c n stack none count) (hdir : w.dir n = some d)
    (hempty : d.tree.names stack = []) (hstack : d.tree.isFolder stack = true) (hroot : stack ≠ []) :
    w.recover p name = ((w.setDir n (d.remove stack)).log p n (.entry stack)).setPhase p
      (.removing c n stack.dropLast none count) := by
  unfold World.recover
  rw [hp]
  dsimp only
  rw [hdir]
  dsimp only
  rw [if_neg fun h => hroot h.1, if_neg (by rw [hempty]; exact List.not_mem_nil), if_neg (not_not.2 hempty),
    if_neg hroot, if_neg (by rw [not_throughLink hstack]; exact nofun)]

/-- When only the lease is left, two steps are. -/
theorem reaches_end (hp : w.phase p = .removing c n [] none count) (hdir : w.dir n = some d)
    (hempty : d.empty) (hlease : d.lease = .regular) : ∃ w', Reaches p w w' ∧ w'.dir n = none := by
  set w₁ := ((w.setDir n (d.mark .none)).log p n .lease).setPhase p (.unmarked c n) with hw₁
  have hunmark : w.recover p "" = w₁ := by
    have hname : ¬(([] : List String) = [] ∧ "" = lease) := by decide
    have hmem : "" ∉ d.tree.names [] := by
      rw [show d.tree.names [] = [] from hempty]
      exact List.not_mem_nil
    unfold World.recover
    rw [hp]
    dsimp only
    rw [hdir]
    dsimp only
    rw [if_neg hname, if_neg hmem, if_neg (not_not.2 (show d.tree.names [] = [] from hempty)), if_pos rfl, if_neg (by rw [hlease]; exact nofun)]
  have hdir₁ : w₁.dir n = some (d.mark .none) := by rw [hw₁, dir_setPhase, dir_log, dir_setDir, if_pos rfl]
  have hp₁ : w₁.phase p = .unmarked c n := phase_setPhase_self
  refine ⟨_, (Reaches.next "" hunmark).trans (Reaches.next "" rfl), ?_⟩
  unfold World.recover
  rw [hp₁]
  dsimp only
  rw [hdir₁]
  dsimp only
  rw [if_pos ⟨rfl, hempty⟩, dir_setPhase, dir_unlock, dir_log, dir_removeDir, if_pos rfl]

theorem isFolder_of_remove (h : (d.remove path).tree.isFolder stack = true) : d.tree.isFolder stack = true := by
  unfold Dir.remove at h
  split at h
  · exact h
  · dsimp only at h
    rw [PathTree.isFolder, PathTree.node_remove] at h
    split_ifs at h
    · cases h
    · exact h

theorem length_remove (hpath : path ≠ []) (hnode : (d.tree.node path).isSome) :
    (d.remove path).tree.entries.length < d.tree.entries.length := by
  unfold Dir.remove
  rw [dif_neg hpath]
  exact PathTree.length_remove_lt hnode

/-- A removal that nobody disturbs gets to its end. What is left to count is the entries that it is not
in. -/
theorem reaches_removed : ∀ (k : ℕ) {w : World} {stack : List String} {count : ℕ} {d : Dir},
    2 * d.tree.entries.length + 10 < k + stack.length → w.phase p = .removing c n stack none count →
      w.dir n = some d → d.lease = .regular → d.tree.isFolder stack = true →
      (∀ path, d.tree.isFolder path = true → path.length ≤ 10) →
      count + d.tree.entries.length ≤ 517 + stack.length → ∃ w', Reaches p w w' ∧ w'.dir n = none := by
  intro k
  induction k with
  | zero =>
    intro w stack count d hk _ _ _ hstack hdepth _
    have := hdepth stack hstack
    omega
  | succ k ih =>
    intro w stack count d hk hp hdir hlease hstack hdepth hcount
    rcases hnames : d.tree.names stack with _ | ⟨child, rest⟩
    · rcases eq_or_ne stack [] with rfl | hroot
      · exact reaches_end hp hdir hnames hlease
      · -- the directory is empty, and is left
        have hnode : (d.tree.node stack).isSome := by
          obtain ⟨v, hv, -⟩ := PathTree.isFolder_iff.1 hstack
          exact Option.isSome_iff_exists.2 ⟨v, PathTree.node_eq_some.2 hv⟩
        have hlt := length_remove hroot hnode
        have hpos := List.length_pos_iff.2 hroot
        have hlen : stack.dropLast.length = stack.length - 1 := List.length_dropLast
        have hleave := recover_leaves "" hp hdir hnames hstack hroot
        set w₁ := ((w.setDir n (d.remove stack)).log p n (.entry stack)).setPhase p
          (.removing c n stack.dropLast none count) with hw₁
        have hp₁ : w₁.phase p = .removing c n stack.dropLast none count := phase_setPhase_self
        obtain ⟨w', hreach, hgone⟩ := ih (d := d.remove stack) (by omega) hp₁
          (by rw [dir_setPhase, dir_log, dir_setDir, if_pos rfl]) (by rw [lease_remove, hlease])
          (isFolder_remove (PathTree.isFolder_above hstack (List.dropLast_prefix stack)) fun hpre => by
            have := hpre.length_le
            omega)
          (fun path hpath => hdepth path (isFolder_of_remove hpath)) (by omega)
        exact ⟨w', (Reaches.next "" hleave).trans hreach, hgone⟩
    · -- there is an entry, which is counted
      have hchild : child ∈ d.tree.names stack := by rw [hnames]; exact List.mem_cons_self
      have hnode := PathTree.mem_names.1 hchild
      have hsize := PathTree.length_lt hnode
      rw [List.length_append, List.length_singleton] at hsize
      have hread := recover_reads hp hdir hchild (by omega)
      set w₁ := w.setPhase p (.removing c n stack (some (child, d.tree.isFolder (stack ++ [child]))) (count + 1))
        with hw₁
      have hp₁ : w₁.phase p = .removing c n stack (some (child, d.tree.isFolder (stack ++ [child]))) (count + 1) :=
        phase_setPhase_self
      have hdir₁ : w₁.dir n = some d := hdir
      rcases hkind : d.tree.isFolder (stack ++ [child]) with _ | _
      · rw [hkind] at hp₁
        have htake := recover_takes "" hp₁ hdir₁ hstack hnode hkind
        have hlt := length_remove (by simp) hnode
        set w₂ := ((w₁.setDir n (d.remove (stack ++ [child]))).log p n (.entry (stack ++ [child]))).setPhase p
          (.removing c n stack none (count + 1)) with hw₂
        have hp₂ : w₂.phase p = .removing c n stack none (count + 1) := phase_setPhase_self
        obtain ⟨w', hreach, hgone⟩ := ih (d := d.remove (stack ++ [child])) (by omega) hp₂
          (by rw [dir_setPhase, dir_log, dir_setDir, if_pos rfl]) (by rw [lease_remove, hlease])
          (isFolder_remove hstack fun hpre => by
            have := hpre.length_le
            simp at this)
          (fun path hpath => hdepth path (isFolder_of_remove hpath)) (by omega)
        exact ⟨w', (Reaches.next child hread).trans ((Reaches.next "" htake).trans hreach), hgone⟩
      · rw [hkind] at hp₁
        have henter := recover_enters "" hp₁ hdir₁ hkind (hdepth _ hkind)
        have hlen : (stack ++ [child]).length = stack.length + 1 := by simp
        set w₂ := w₁.setPhase p (.removing c n (stack ++ [child]) none (count + 1)) with hw₂
        have hp₂ : w₂.phase p = .removing c n (stack ++ [child]) none (count + 1) := phase_setPhase_self
        have hdir₂ : w₂.dir n = some d := hdir
        obtain ⟨w', hreach, hgone⟩ := ih (d := d) (by omega) hp₂ hdir₂ hlease hkind hdepth (by omega)
        exact ⟨w', (Reaches.next child hread).trans ((Reaches.next "" henter).trans hreach), hgone⟩

/-- A call that comes to a stage that nobody uses can remove it. -/
theorem reaches_resumed (hp : w.phase p = .scanning c) (hleft : c.left ≠ 0) (hmore : c.recovered ≠ 8)
    (hstage : stageName c.front n = true) (hresumable : Resumable w n d) (hwithin : Within d) :
    ∃ w', Reaches p w w' ∧ w'.dir n = none := by
  obtain ⟨hdir, hlease, hmarked, hfree⟩ := hresumable
  set c' : Call := { c with left := c.left - 1 } with hc'
  have hfind : w.recover p n = w.setPhase p (.found c' n) := by
    unfold World.recover
    rw [hp]
    dsimp only
    rw [if_neg (not_or.2 ⟨hleft, hmore⟩), if_pos ⟨hstage, by rw [hdir]; rfl⟩]
  set w₁ := w.setPhase p (.found c' n) with hw₁
  have hp₁ : w₁.phase p = .found c' n := phase_setPhase_self
  have hopen : w₁.recover p "" = w₁.setPhase p (.opened c' n) := by
    unfold World.recover
    rw [hp₁]
    dsimp only
    rw [show w₁.dir n = some d from hdir]
    dsimp only
    rw [if_pos hlease]
  set w₂ := w₁.setPhase p (.opened c' n) with hw₂
  have hp₂ : w₂.phase p = .opened c' n := phase_setPhase_self
  have hmeasure : w₂.recover p "" = w₂.setPhase p (.measured c' n) := by
    have hlen : (w₂.file n).content.length = Skills.marker.length := congrArg List.length hmarked
    unfold World.recover
    rw [hp₂]
    dsimp only
    rw [if_pos hlen]
  set w₃ := w₂.setPhase p (.measured c' n) with hw₃
  have hp₃ : w₃.phase p = .measured c' n := phase_setPhase_self
  have hlock : w₃.recover p "" =
      (w₃.setFile n { w₃.file n with holder := some p }).setPhase p (.locked c' n) := by
    unfold World.recover
    rw [hp₃]
    dsimp only
    rw [if_pos (show (w₃.file n).holder = none from hfree)]
  set w₄ := (w₃.setFile n { w₃.file n with holder := some p }).setPhase p (.locked c' n) with hw₄
  have hp₄ : w₄.phase p = .locked c' n := phase_setPhase_self
  have hread : w₄.recover p "" = w₄.setPhase p (.removing c' n [] none 0) := by
    have hcontent : (w₄.file n).content = Skills.marker := by
      show ((w₃.setFile n { w₃.file n with holder := some p }).file n).content = Skills.marker
      rw [file_setFile, if_pos rfl]
      exact hmarked
    unfold World.recover
    rw [hp₄]
    dsimp only
    rw [if_neg (not_not.2 hcontent), if_pos (by rw [show w₄.dir n = some d from hdir]; rfl)]
  obtain ⟨w', hreach, hgone⟩ := reaches_removed (p := p) (c := c') (n := n) (d := d)
    (2 * d.tree.entries.length + 11) (by simp) phase_setPhase_self
    (show (w₄.setPhase p (.removing c' n [] none 0)).dir n = some d from hdir) hlease d.root
    hwithin.depth (by simpa using hwithin.count)
  refine ⟨w', ?_, hgone⟩
  exact (Reaches.next n hfind).trans ((Reaches.next "" hopen).trans ((Reaches.next "" hmeasure).trans
    ((Reaches.next "" hlock).trans ((Reaches.next "" hread).trans hreach))))

end resumes

section runs

/-- No process has begun. What is in the directory of the stages is left from before. -/
structure Quiet (w : World) : Prop where
  idle : ∀ p, w.phase p = .idle
  free : ∀ n, (w.file n).holder = none
  used : ∀ n, (w.parent n).isSome → n ∈ w.used
  removed : w.removed = []
  strayed : w.strayed = false

theorem Quiet.inv (h : Quiet w) : Inv w where
  used := h.used
  phase p := by
    rw [h.idle p]
    exact ⟨fun _ _ hn => by (cases hn), fun _ hn => by (cases hn), fun _ hn => by (cases hn),
      fun _ hn => by (cases hn), fun _ hn => by (cases hn)⟩
  single p q n hp _ := by
    rw [h.idle p] at hp
    cases hp
  strayed := h.strayed

theorem Quiet.tallied (h : Quiet w) (p : ℕ) : Tallied w p where
  taken n := by
    rw [h.removed]
    exact Nat.zero_le _
  phase := by
    rw [h.idle p]
    show touched w.removed p = ∅
    rw [h.removed]
    rfl

/-- What a step may do. A removal is lawful and of no more than a call may remove, no link is followed,
a removal that ends with something left can be taken up, and then it can be finished. -/
structure Judged (w : World) (a : Act) : Prop where
  lawful : ∀ r, (step w a).removed = r :: w.removed → Lawful w r
  straight : (step w a).strayed = false
  trees : ∀ p, (touched (step w a).removed p).card ≤ 8
  entries : ∀ p n, taken (step w a).removed p n ≤ 516
  resumable : ∀ p c n stack pending count d, w.phase p = .removing c n stack pending count →
    w.dir n = some d → ¬d.empty → (step w a).phase p = .ended → Resumable (step w a) n d
  finishable : ∀ p c n d, w.phase p = .scanning c → c.left ≠ 0 → c.recovered ≠ 8 →
    stageName c.front n = true → Resumable w n d → Within d → ∃ w', Reaches p w w' ∧ w'.dir n = none

theorem Inv.judged (h : Inv w) (htallied : ∀ p, Tallied w p) (hcare : Careful w a) : Judged w a where
  lawful r hr := by
    cases a with
    | recover p name => exact h.recover_lawful hr
    | start p front =>
      unfold SkillStaging.step at hr
      dsimp only at hr
      split at hr <;> exact not_logged hr
    | use p u => exact not_logged ((removed_use u).symm.trans hr)
    | fail p => exact not_logged (removed_fail.symm.trans hr)
    | kill p => exact not_logged hr
  straight := (h.step hcare).strayed
  trees p := tally_card ((htallied p).step h).phase
  entries p := ((htallied p).step h).taken
  resumable p c n stack pending count d hp hdir hleft hend := by
    rw [h.stopped hp hend]
    exact h.resumable hp hdir hleft
  finishable _ _ _ _ hp hleft hmore hstage hresumable hwithin :=
    reaches_resumed hp hleft hmore hstage hresumable hwithin

/-- In a run in which no process ends within a drop behind its lease while a recovery has the lease
open, recoveries remove abandoned stages only, and what they leave can be taken up. -/
theorem recoveries_judged {acts : List Act} (hquiet : Quiet w)
    (hcare : Runs.Throughout step Careful w acts) : Runs.Throughout step Judged w acts := by
  have hstep : ∀ {acts : List Act} {w : World}, Inv w → (∀ p, Tallied w p) →
      Runs.Throughout step Careful w acts → Runs.Throughout step Judged w acts := by
    intro acts
    induction acts with
    | nil => exact fun _ _ _ => trivial
    | cons a acts ih =>
      exact fun h htallied hcare => ⟨h.judged htallied hcare.1,
        ih (h.step hcare.1) (fun p => (htallied p).step h) hcare.2⟩
  exact hstep hquiet.inv hquiet.tallied hcare

def vacant : World where
  parent _ := none
  file _ := {}
  used := []
  phase _ := .idle

theorem quiet_vacant : Quiet vacant where
  idle _ := rfl
  free _ := rfl
  used _ h := by cases h
  removed := rfl
  strayed := rfl

/-- A process makes a stage and puts a file in it. -/
def filled : List Act :=
  [.start 0 "stage-", .use 0 (.make "stage-aaaaaa"), .use 0 .equip, .use 0 .equip, .use 0 (.write 26),
    .use 0 (.fill ["file"] .file)]

theorem recoveries_judged_killed : Runs.Throughout step Judged vacant (filled ++ [.kill 0,
    .start 1 "stage-", .recover 1 "stage-aaaaaa", .recover 1 "", .recover 1 "", .recover 1 "",
    .recover 1 "", .recover 1 "file", .recover 1 "", .recover 1 "", .recover 1 ""]) := by
  refine recoveries_judged quiet_vacant ?_
  rw [Runs.throughout_append]
  refine ⟨⟨trivial, trivial, trivial, trivial, trivial, trivial, trivial⟩, spared_of_ne fun n hn => ?_,
    trivial, trivial, trivial, trivial, trivial, trivial, trivial, trivial, trivial, trivial, trivial⟩
  have hlive : (Runs.run step vacant filled).phase 0 = .live "stage-aaaaaa" := by decide +kernel
  rw [hlive] at hn
  cases hn

/-- A recovery that has the lease open goes on in a stage whose owner ends behind the lease. -/
def unlinked : List Act :=
  filled ++ [.start 1 "stage-", .recover 1 "stage-aaaaaa", .recover 1 "", .recover 1 "", .use 0 .drop,
    .use 0 .dropLease, .kill 0, .recover 1 "", .recover 1 "", .recover 1 "file"]

theorem not_judged_unlinked : ¬∀ acts, Runs.Throughout step Judged vacant acts := by
  intro h
  have hrun := h (unlinked ++ [.recover 1 ""])
  rw [Runs.throughout_append] at hrun
  obtain ⟨d, hdir, hlease, -⟩ := (hrun.2.1.lawful ⟨1, "stage-aaaaaa", .entry ["file"]⟩
    (by decide +kernel)).item
  have hnone : ((Runs.run step vacant unlinked).dir "stage-aaaaaa").map (·.lease) = some .none := by
    decide +kernel
  rw [hdir, Option.map_some, hlease] at hnone
  cases hnone

end runs

end SkillStaging

end LatteWork
