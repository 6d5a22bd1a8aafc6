import LatteWork.Server.SkillStaging
import LatteWork.Lib.Runs

/-!
# Recovery removes what nobody uses

A recovery removes a directory only under the lock of its lease, which the process that made the
directory has until it is done with it. So what a recovery removes is in nobody's use, and the lease
is the last thing that it removes, but for a drop that ends early behind its lease.
-/

namespace LatteWork

namespace SkillStaging

open Skills (stageName lease)

namespace Phase

/-- The directory that a process has made and not done with. -/
def owns : Phase → Option String
  | made n | leased n | held n | live n | dropping n _ => some n
  | _ => none

/-- The directory of the lease that a process has a hold of. -/
def name? : Phase → Option String
  | opened _ n | measured _ n | locked _ n | removing _ n _ _ _ | unmarked _ n => some n
  | ph => ph.owns

/-- The directory of the lease that a process has locked. -/
def holds : Phase → Option String
  | locked _ n | removing _ n _ _ _ | unmarked _ n | held n | live n | dropping n true => some n
  | _ => none

/-- The directory that a recovery takes for a stage. -/
def target : Phase → Option (Call × String)
  | found c n | opened c n | measured c n | locked c n | removing c n _ _ _ | unmarked c n => some (c, n)
  | _ => none

/-- A lease that is being written is not complete, and one that is used is. -/
def contentOk : Phase → List UInt8 → Prop
  | removing .. | unmarked .. | live _ | dropping _ true => (· = Skills.marker)
  | made _ | leased _ | held _ | dropping _ false => (·.length < Skills.marker.length)
  | _ => fun _ => True

end Phase

open Phase

/-- A lease that has been opened is still there, or it has been the last thing in its directory, or it
never was complete, or the process that made it is dropping it. -/
def Known (w : World) (n : String) : Prop :=
  ∀ d, w.dir n = some d → d.lease = .regular ∨ (d.lease = .none ∧
    (d.empty ∨ (w.file n).content.length < Skills.marker.length ∨ ∃ q, w.phase q = .dropping n true))

/-- A removal is in a directory. -/
def Walks (w : World) (n : String) (stack : List String) (pending : Option (String × Bool)) : Prop :=
  ∀ d, w.dir n = some d → d.tree.isFolder stack = true ∧
    ∀ child, pending = some (child, true) → d.tree.isFolder (stack ++ [child]) = true

namespace Phase

/-- What a process relies on in its directory. -/
def placeOk (w : World) (n : String) : Phase → Prop
  | opened .. | measured .. | locked .. => Known w n
  | removing _ _ stack pending _ => Known w n ∧ Walks w n stack pending
  | unmarked .. => ∀ d, w.dir n = some d → d.lease = .none ∧ d.empty
  | made _ => ∃ d, w.dir n = some d ∧ d.lease = .none
  | leased _ | held _ | live _ => ∃ d, w.dir n = some d ∧ d.lease = .regular
  | dropping .. => ∀ d, w.dir n = some d → d.lease ≠ .foreign
  | _ => True

end Phase

/-- What holds for a process. -/
structure Fits (w : World) (p : ℕ) (ph : Phase) : Prop where
  stage : ∀ c n, ph.target = some (c, n) → stageName c.front n = true
  used : ∀ n, ph.name? = some n → n ∈ w.used
  holds : ∀ n, ph.holds = some n → (w.file n).holder = some p
  content : ∀ n, ph.name? = some n → ph.contentOk (w.file n).content
  place : ∀ n, ph.name? = some n → ph.placeOk w n

structure Inv (w : World) : Prop where
  used : ∀ n, (w.parent n).isSome → n ∈ w.used
  phase : ∀ p, Fits w p (w.phase p)
  single : ∀ p q n, (w.phase p).owns = some n → (w.phase q).owns = some n → p = q
  strayed : w.strayed = false

variable {w w' : World} {p q : ℕ} {ph ph' : Phase} {n name : String} {c : Call} {d d' : Dir}

theorem name?_of_owns (h : ph.owns = some n) : ph.name? = some n := by
  cases ph <;> first | exact h | cases h

theorem name?_of_holds (h : ph.holds = some n) : ph.name? = some n := by
  cases ph with
  | dropping m locked =>
    cases locked
    · cases h
    · exact h
  | _ => first | exact h | cases h

/-- A lock has one holder. -/
theorem Inv.holds_unique (h : Inv w) (hp : (w.phase p).holds = some n)
    (hq : (w.phase q).holds = some n) : p = q :=
  Option.some.inj (((h.phase p).holds n hp).symm.trans ((h.phase q).holds n hq))

/-- Who owns a directory has its lock, or its lease is not complete. -/
theorem Inv.owner (h : Inv w) (hq : (w.phase q).owns = some n) :
    (w.phase q).holds = some n ∨ (w.file n).content.length < Skills.marker.length := by
  have hcontent := (h.phase q).content n (name?_of_owns hq)
  generalize w.phase q = ph at hq hcontent
  cases ph with
  | dropping m locked =>
    cases locked
    · exact .inr hcontent
    · exact .inl hq
  | live m => exact .inl hq
  | made | leased | held => exact .inr hcontent
  | _ => cases hq

/-- Nobody owns a directory whose complete lease another process has locked. -/
theorem Inv.not_owned (h : Inv w) (hp : (w.phase p).holds = some n) (hown : (w.phase p).owns = none)
    (hmarker : (w.file n).content = Skills.marker) : (w.phase q).owns ≠ some n := by
  intro hq
  rcases h.owner hq with hheld | hshort
  · obtain rfl := h.holds_unique hp hheld
    rw [hown] at hq
    cases hq
  · rw [hmarker] at hshort
    exact Nat.lt_irrefl _ hshort

/-- What has been opened and is removed has its lease, or nothing. -/
theorem Inv.removing_dir {stack : List String} {pending : Option (String × Bool)} {count : ℕ}
    (h : Inv w) (hp : w.phase p = .removing c n stack pending count) (hdir : w.dir n = some d) :
    d.lease = .regular ∨ d.lease = .none ∧ d.empty := by
  have hfits := h.phase p
  rw [hp] at hfits
  obtain ⟨hknown, -⟩ := hfits.place n rfl
  have hcontent : (w.file n).content = Skills.marker := hfits.content n rfl
  rcases hknown d hdir with hregular | ⟨hnone, hempty | hshort | ⟨q, hq⟩⟩
  · exact .inl hregular
  · exact .inr ⟨hnone, hempty⟩
  · rw [hcontent] at hshort
    exact absurd hshort (Nat.lt_irrefl _)
  · have hown : (w.phase q).owns = some n := by rw [hq]; rfl
    exact absurd hown (h.not_owned (p := p) (by rw [hp]; rfl) (by rw [hp]; rfl) hcontent)

/-- What holds for a process still holds when others keep what it relies on. -/
theorem Fits.keep (h : Fits w q ph) (hused : ∀ n ∈ w.used, n ∈ w'.used)
    (hholder : ∀ n, ph.holds = some n → (w.file n).holder = some q → (w'.file n).holder = some q)
    (hcontent : ∀ n, ph.name? = some n → (w'.file n).content = (w.file n).content)
    (hplace : ∀ n, ph.name? = some n → ph.placeOk w n → ph.placeOk w' n) : Fits w' q ph where
  stage := h.stage
  used n hn := hused n (h.used n hn)
  holds n hn := hholder n hn (h.holds n hn)
  content n hn := by
    rw [hcontent n hn]
    exact h.content n hn
  place n hn := hplace n hn (h.place n hn)

/-- A process relies on nothing but its directory, the lease of it, and who drops it. -/
theorem placeOk_congr (hdir : w'.dir n = w.dir n) (hcontent : (w'.file n).content = (w.file n).content)
    (hdrop : ∀ r, w.phase r = .dropping n true → w'.phase r = .dropping n true)
    (h : ph.placeOk w n) : ph.placeOk w' n := by
  have hknown (hk : Known w n) : Known w' n := by
    intro d hd
    rw [hdir] at hd
    rcases hk d hd with hregular | ⟨hnone, hempty | hshort | ⟨r, hr⟩⟩
    · exact .inl hregular
    · exact .inr ⟨hnone, .inl hempty⟩
    · exact .inr ⟨hnone, .inr (.inl (by rwa [hcontent]))⟩
    · exact .inr ⟨hnone, .inr (.inr ⟨r, hdrop r hr⟩)⟩
  cases ph with
  | opened | measured | locked => exact hknown h
  | removing => exact ⟨hknown h.1, fun d hd => h.2 d (hdir ▸ hd)⟩
  | unmarked => exact fun d hd => h d (hdir ▸ hd)
  | dropping => exact fun d hd => h d (hdir ▸ hd)
  | made | leased | held | live =>
    obtain ⟨d, hd, hlease⟩ := h
    exact ⟨d, hdir.trans hd, hlease⟩
  | _ => exact h

section moves

/-- A step of `p` keeps the invariant, if what the others rely on is still so. -/
theorem Inv.next (h : Inv w) (p : ℕ) (hparent : ∀ n, (w'.parent n).isSome → n ∈ w'.used)
    (hphase : ∀ q, q ≠ p → w'.phase q = w.phase q) (hp : w'.phase p = ph') (hself : Fits w' p ph')
    (hothers : ∀ q, q ≠ p → Fits w' q (w.phase q))
    (hown : ∀ q n, q ≠ p → ph'.owns = some n → (w.phase q).owns ≠ some n)
    (hstrayed : w'.strayed = false) : Inv w' where
  used := hparent
  phase q := by
    by_cases hq : q = p
    · rw [hq, hp]
      exact hself
    · rw [hphase q hq]
      exact hothers q hq
  single q r n hqn hrn := by
    by_contra hne
    by_cases hq : q = p
    · subst hq
      rw [hp] at hqn
      rw [hphase r (Ne.symm hne)] at hrn
      exact hown r n (Ne.symm hne) hqn hrn
    · rw [hphase q hq] at hqn
      by_cases hr : r = p
      · subst hr
        rw [hp] at hrn
        exact hown q n hq hrn hqn
      · rw [hphase r hr] at hrn
        exact hne (h.single q r n hqn hrn)
  strayed := hstrayed

/-- Who owns nothing new takes nothing from the others. -/
theorem Inv.owns_kept (h : Inv w) (hown : ∀ n, ph'.owns = some n → (w.phase p).owns = some n) :
    ∀ q n, q ≠ p → ph'.owns = some n → (w.phase q).owns ≠ some n := fun q n hq hn hqn =>
  hq (h.single q p n hqn (hown n hn))

/-- A process goes on to another phase. -/
theorem Inv.setPhase (h : Inv w) (hself : Fits w p ph') (hdrop : ∀ n, w.phase p ≠ .dropping n true)
    (hown : ∀ n, ph'.owns = some n → (w.phase p).owns = some n) : Inv (w.setPhase p ph') := by
  have hphase : ∀ q, q ≠ p → (w.setPhase p ph').phase q = w.phase q := fun q hq =>
    Function.update_of_ne hq _ _
  have hp : (w.setPhase p ph').phase p = ph' := Function.update_self _ _ _
  have hdropping : ∀ n r, w.phase r = .dropping n true → (w.setPhase p ph').phase r = .dropping n true :=
    fun n r hr => by
      by_cases hrp : r = p
      · rw [hrp] at hr
        exact absurd hr (hdrop n)
      · rw [hphase r hrp]
        exact hr
  have hfits {q : ℕ} {ph : Phase} (hq : Fits w q ph) : Fits (w.setPhase p ph') q ph :=
    hq.keep (fun _ hn => hn) (fun _ _ hn => hn) (fun _ _ => rfl)
      fun n _ => placeOk_congr rfl rfl (hdropping n)
  exact h.next p h.used hphase hp (hfits hself) (fun q _ => hfits (h.phase q)) (h.owns_kept hown)
    h.strayed

/-- Where a drop ends behind its lease, nobody has the lease open. -/
def Spared (w : World) (p : ℕ) : Prop :=
  ∀ n d, w.phase p = .dropping n true → w.dir n = some d → d.lease = .none →
    ∀ q c, w.phase q ≠ .opened c n ∧ w.phase q ≠ .measured c n

theorem unlock_holder {n : String} (hq : q ≠ p) (h : (w.file n).holder = some q) :
    ((w.unlock p).file n).holder = some q := by
  have hne : (w.file n).holder ≠ some p := by
    rw [h]
    simpa using hq
  simp only [World.unlock, if_neg hne]
  exact h

theorem unlock_content (n : String) : ((w.unlock p).file n).content = (w.file n).content := by
  unfold World.unlock
  dsimp only
  split <;> rfl

/-- A process that ends, or is done with a lease, lets its locks go. -/
theorem Inv.unlock (h : Inv w) (hspared : Spared w p)
    (hself : Fits ((w.unlock p).setPhase p ph') p ph')
    (hown : ∀ n, ph'.owns = some n → (w.phase p).owns = some n) :
    Inv ((w.unlock p).setPhase p ph') := by
  have hphase : ∀ q, q ≠ p → ((w.unlock p).setPhase p ph').phase q = w.phase q := fun q hq =>
    Function.update_of_ne hq _ _
  have hp : ((w.unlock p).setPhase p ph').phase p = ph' := Function.update_self _ _ _
  refine h.next p h.used hphase hp hself (fun q hq => ?_) (h.owns_kept hown) h.strayed
  refine (h.phase q).keep (fun _ hn => hn) (fun n _ => unlock_holder hq) (fun n _ => unlock_content n) ?_
  intro n hn hplace
  by_cases hdrop : w.phase p = .dropping n true
  · -- only who has opened the lease knows of the drop, and then it is still there
    have hknown (c : Call) (hopen : w.phase q = .opened c n ∨ w.phase q = .measured c n)
        (hk : Known w n) : Known ((w.unlock p).setPhase p ph') n := by
      intro d hd
      rcases hk d hd with hregular | ⟨hnone, -⟩
      · exact .inl hregular
      · obtain ⟨hopened, hmeasured⟩ := hspared n d hdrop hd hnone q c
        rcases hopen with hopen | hopen
        · exact absurd hopen hopened
        · exact absurd hopen hmeasured
    have hholds : (w.phase q).holds ≠ some n := fun hh => hq (h.holds_unique hh (by rw [hdrop]; rfl))
    have howns : (w.phase q).owns ≠ some n := fun hh => hq (h.single q p n hh (by rw [hdrop]; rfl))
    cases hqp : w.phase q with
    | opened c m =>
      rw [hqp] at hn hplace
      obtain rfl : m = n := Option.some.inj hn
      exact hknown c (.inl hqp) hplace
    | measured c m =>
      rw [hqp] at hn hplace
      obtain rfl : m = n := Option.some.inj hn
      exact hknown c (.inr hqp) hplace
    | locked | removing | unmarked =>
      rw [hqp] at hn hholds
      exact absurd hn hholds
    | made | leased | held | live | dropping =>
      rw [hqp] at hn howns
      exact absurd hn howns
    | _ => trivial
  · refine placeOk_congr (w := w) rfl (unlock_content n) (fun r hr => ?_) hplace
    have hrp : r ≠ p := by
      rintro rfl
      exact hdrop hr
    rw [hphase r hrp]
    exact hr

theorem fits_ended : Fits w p .ended where
  stage _ _ h := by cases h
  used _ h := by cases h
  holds _ h := by cases h
  content _ h := by cases h
  place _ h := by cases h

theorem fits_scanning : Fits w p (.scanning c) where
  stage _ _ h := by cases h
  used _ h := by cases h
  holds _ h := by cases h
  content _ h := by cases h
  place _ h := by cases h

theorem Inv.stop (h : Inv w) (hspared : Spared w p) : Inv (w.stop p) :=
  h.unlock hspared fits_ended fun _ hn => by cases hn

theorem spared_of_ne (hdrop : ∀ n, w.phase p ≠ .dropping n true) : Spared w p :=
  fun n _ hn _ _ _ _ => absurd hn (hdrop n)

theorem file_setFile (w : World) (n : String) (file : LeaseFile) (m : String) :
    (w.setFile n file).file m = if m = n then file else w.file m :=
  Function.update_apply _ _ _ _

/-- A lock that nobody has is taken. -/
theorem Inv.lock (h : Inv w) (hfree : (w.file n).holder = none)
    (hself : Fits ((w.setFile n { w.file n with holder := some p }).setPhase p ph') p ph')
    (hdrop : ∀ n, w.phase p ≠ .dropping n true)
    (hown : ∀ n, ph'.owns = some n → (w.phase p).owns = some n) :
    Inv ((w.setFile n { w.file n with holder := some p }).setPhase p ph') := by
  set w' := (w.setFile n { w.file n with holder := some p }).setPhase p ph' with hw'
  have hphase : ∀ q, q ≠ p → w'.phase q = w.phase q := fun q hq => Function.update_of_ne hq _ _
  have hp : w'.phase p = ph' := Function.update_self _ _ _
  have hcontent (m : String) : (w'.file m).content = (w.file m).content := by
    show ((w.setFile n { w.file n with holder := some p }).file m).content = (w.file m).content
    rw [file_setFile]
    split_ifs with hm
    · rw [hm]
    · rfl
  refine h.next p h.used hphase hp hself (fun q hq => ?_) (h.owns_kept hown) h.strayed
  refine (h.phase q).keep (fun _ hn => hn) (fun m hm hholder => ?_) (fun m _ => hcontent m)
    fun m _ => placeOk_congr rfl (hcontent m) fun r hr => ?_
  · have hmn : m ≠ n := by
      rintro rfl
      rw [hfree] at hholder
      cases hholder
    show ((w.setFile n { w.file n with holder := some p }).file m).holder = some q
    rw [file_setFile, if_neg hmn]
    exact hholder
  · have hrp : r ≠ p := by
      rintro rfl
      exact hdrop m hr
    rw [hphase r hrp]
    exact hr

theorem dir_eq (w : World) (n : String) : w.dir n = match w.parent n with
    | some (.dir d) => some d
    | _ => none := rfl

theorem dir_of_parent {m : String} (h : w'.parent m = w.parent m) : w'.dir m = w.dir m := by
  rw [dir_eq, dir_eq, h]

/-- What is at one name changes. -/
theorem Inv.change {e : Option Entry} (h : Inv w) (hmem : n ∈ w.used)
    (hparent : w'.parent = Function.update w.parent n e) (hfile : w'.file = w.file)
    (hused : w'.used = w.used) (hphase : w'.phase = Function.update w.phase p ph')
    (hstrayed : w'.strayed = w.strayed) (hself : Fits w' p ph')
    (hdrop : ∀ m, w.phase p = .dropping m true → ph' = .dropping m true)
    (hown : ∀ n, ph'.owns = some n → (w.phase p).owns = some n)
    (hothers : ∀ q, q ≠ p → (w.phase q).name? = some n → (w.phase q).placeOk w' n) : Inv w' := by
  have hne (q : ℕ) (hq : q ≠ p) : w'.phase q = w.phase q := by
    rw [hphase]
    exact Function.update_of_ne hq _ _
  have hp : w'.phase p = ph' := by
    rw [hphase]
    exact Function.update_self _ _ _
  refine h.next p (fun m hm => ?_) hne hp hself (fun q hq => ?_) (h.owns_kept hown)
    (hstrayed.trans h.strayed)
  · rw [hused]
    by_cases hmn : m = n
    · rw [hmn]
      exact hmem
    · rw [hparent, Function.update_of_ne hmn] at hm
      exact h.used m hm
  · refine (h.phase q).keep (fun _ hn => hused ▸ hn) (fun m _ hholder => by rw [hfile]; exact hholder)
      (fun m _ => by rw [hfile]) fun m hm hplace => ?_
    by_cases hmn : m = n
    · rw [hmn] at hm ⊢
      exact hothers q hq hm
    · refine placeOk_congr (w := w) (dir_of_parent ?_) (by rw [hfile]) (fun r hr => ?_) hplace
      · rw [hparent, Function.update_of_ne hmn]
      · by_cases hrp : r = p
        · rw [hrp, hp]
          exact hdrop m (hrp ▸ hr)
        · rw [hne r hrp]
          exact hr

/-- Only its lease is known of a directory that a process has in hand. -/
theorem Inv.others (h : Inv w) (hp : (w.phase p).owns = some n ∨
      (w.phase p).holds = some n ∧ (w.phase p).owns = none ∧ (w.file n).content = Skills.marker)
    (hq : q ≠ p) (hname : (w.phase q).name? = some n) (hknown : Known w n → Known w' n) :
    (w.phase q).placeOk w' n := by
  have hplace := (h.phase q).place n hname
  have hnot (hown : (w.phase q).owns = some n) : False := by
    rcases hp with hp | ⟨hheld, hfree, hmarker⟩
    · exact hq (h.single q p n hown hp)
    · exact h.not_owned hheld hfree hmarker hown
  have hfree (hholds : (w.phase q).holds = some n) (hown : (w.phase q).owns = none)
      (hmarker : (w.file n).content = Skills.marker) : False := by
    rcases hp with hp | ⟨hheld, -, -⟩
    · exact h.not_owned hholds hown hmarker hp
    · exact hq (h.holds_unique hholds hheld)
  have hcontent := (h.phase q).content n hname
  generalize w.phase q = ph at hname hplace hnot hfree hcontent
  cases ph with
  | opened | measured | locked => exact hknown hplace
  | removing | unmarked => exact (hfree hname rfl hcontent).elim
  | made | leased | held | live | dropping => exact (hnot hname).elim
  | _ => trivial

theorem dir_update {m : String} {d : Dir} (hparent : w'.parent = Function.update w.parent n (some (.dir d))) :
    w'.dir m = if m = n then some d else w.dir m := by
  rw [dir_eq, dir_eq, hparent, Function.update_apply]
  split_ifs <;> rfl

theorem empty_remove (h : d.empty) (path : List String) : (d.remove path).empty := by
  unfold Dir.remove
  split
  · exact h
  · refine List.eq_nil_iff_forall_not_mem.2 fun x hx => ?_
    rw [PathTree.mem_names, PathTree.node_remove] at hx
    split at hx
    · cases hx
    · have : x ∈ d.tree.names [] := PathTree.mem_names.2 hx
      rw [h] at this
      cases this

@[simp]
theorem lease_remove (path : List String) : (d.remove path).lease = d.lease := by
  unfold Dir.remove
  split <;> rfl

@[simp]
theorem lease_insert (path : List String) (kind : Kind) : (d.insert path kind).lease = d.lease := by
  unfold Dir.insert
  split
  · rfl
  · split <;> rfl

/-- What is taken out of a directory makes no difference to who has its lease open. -/
theorem known_remove {path : List String} (hdir : w.dir n = some d) (hdir' : w'.dir n = some (d.remove path))
    (hcontent : (w'.file n).content = (w.file n).content)
    (hdrop : ∀ r, w.phase r = .dropping n true → w'.phase r = .dropping n true) (h : Known w n) :
    Known w' n := by
  intro d' hd'
  obtain rfl := Option.some.inj (hdir'.symm.trans hd')
  rw [lease_remove, hcontent]
  rcases h d hdir with hregular | ⟨hnone, hempty | hshort | ⟨r, hr⟩⟩
  · exact .inl hregular
  · exact .inr ⟨hnone, .inl (empty_remove hempty path)⟩
  · exact .inr ⟨hnone, .inr (.inl hshort)⟩
  · exact .inr ⟨hnone, .inr (.inr ⟨r, hdrop r hr⟩)⟩

end moves

section uses

theorem Fits.of_phase (h : Inv w) (hp : w.phase p = ph) : Fits w p ph := hp ▸ h.phase p

theorem phase_update (hp : w.phase p = ph) : w.phase = Function.update w.phase p ph :=
  (Function.update_eq_self_iff.2 hp.symm).symm

theorem marker_pos : 0 < Skills.marker.length := by decide +kernel

/-- A directory that a process makes has a new name, so nobody knows it. -/
theorem Inv.make (h : Inv w) (hp : w.phase p = .scanning c) (hname : n ∉ w.used) :
    Inv (({ w.setDir n .new with used := n :: w.used }.setFile n {}).setPhase p (.made n)) := by
  have hne {m : String} (hm : m ∈ w.used) : m ≠ n := by
    rintro rfl
    exact hname hm
  set w' := ({ w.setDir n .new with used := n :: w.used }.setFile n {}).setPhase p (.made n) with hw'
  have hphase : ∀ q, q ≠ p → w'.phase q = w.phase q := fun q hq => Function.update_of_ne hq _ _
  have hparent : w'.parent = Function.update w.parent n (some (.dir .new)) := rfl
  have hfile (m : String) : w'.file m = if m = n then {} else w.file m := Function.update_apply _ _ _ _
  refine h.next p (fun m hm => ?_) hphase (Function.update_self _ _ _) ?_ (fun q hq => ?_)
    (fun q m hq hm hqm => ?_) h.strayed
  · by_cases hmn : m = n
    · rw [hmn]
      exact List.mem_cons_self
    · rw [hparent, Function.update_of_ne hmn] at hm
      exact List.mem_cons_of_mem _ (h.used m hm)
  · refine ⟨fun _ _ hm => by (cases hm), fun m hm => ?_, fun _ hm => by (cases hm), fun m hm => ?_,
      fun m hm => ?_⟩
    · obtain rfl := Option.some.inj hm
      exact List.mem_cons_self
    · obtain rfl := Option.some.inj hm
      rw [hfile, if_pos rfl]
      exact marker_pos
    · obtain rfl := Option.some.inj hm
      exact ⟨.new, by rw [dir_update hparent, if_pos rfl], rfl⟩
  · have hold {m : String} (hm : (w.phase q).name? = some m) : m ≠ n := hne ((h.phase q).used m hm)
    refine (h.phase q).keep (fun m hm => List.mem_cons_of_mem _ hm) (fun m hm hholder => ?_)
      (fun m hm => ?_) fun m hm hplace => ?_
    · rw [hfile, if_neg (hold (name?_of_holds hm))]
      exact hholder
    · rw [hfile, if_neg (hold hm)]
    · refine placeOk_congr (w := w) ?_ ?_ (fun r hr => ?_) hplace
      · rw [dir_update hparent, if_neg (hold hm)]
      · rw [hfile, if_neg (hold hm)]
      · have hrp : r ≠ p := by
          rintro rfl
          rw [hp] at hr
          cases hr
        rw [hphase r hrp]
        exact hr
  · obtain rfl := Option.some.inj hm
    exact hname ((h.phase q).used n (name?_of_owns hqm))

/-- What is written is the rest of the marker. -/
theorem Inv.write (h : Inv w) (hp : w.phase p = .held n) (bytes : ℕ) :
    Inv ((w.setFile n { w.file n with
        content := Skills.marker.take ((w.file n).content.length + bytes) }).setPhase p
      (if Skills.marker.take ((w.file n).content.length + bytes) = Skills.marker then .live n else .held n)) := by
  have hfits := Fits.of_phase h hp
  generalize hcontent : Skills.marker.take ((w.file n).content.length + bytes) = content
  set w' := (w.setFile n { w.file n with content }).setPhase p
    (if content = Skills.marker then .live n else .held n) with hw'
  have hphase : ∀ q, q ≠ p → w'.phase q = w.phase q := fun q hq => Function.update_of_ne hq _ _
  have hfile (m : String) : w'.file m = if m = n then { w.file n with content } else w.file m :=
    Function.update_apply _ _ _ _
  have hself : Fits w' p (if content = Skills.marker then .live n else .held n) := by
    have hholder : (w'.file n).holder = some p := by
      rw [hfile, if_pos rfl]
      exact hfits.holds n rfl
    have hn := hfits.used n rfl
    have hplace := hfits.place n rfl
    split_ifs with hfull
    · refine ⟨fun _ _ hm => by (cases hm), fun m hm => ?_, fun m hm => ?_, fun m hm => ?_, fun m hm => ?_⟩
      all_goals obtain rfl := Option.some.inj hm
      · exact hn
      · exact hholder
      · rw [hfile, if_pos rfl]
        exact hfull
      · exact hplace
    · refine ⟨fun _ _ hm => by (cases hm), fun m hm => ?_, fun m hm => ?_, fun m hm => ?_, fun m hm => ?_⟩
      all_goals obtain rfl := Option.some.inj hm
      · exact hn
      · exact hholder
      · rw [hfile, if_pos rfl]
        refine Nat.lt_of_le_of_ne ?_ fun hlen => hfull ?_
        · rw [← hcontent]
          exact List.length_take_le' _ _
        · rw [← hcontent, List.length_take] at hlen
          rw [← hcontent, List.take_of_length_le (by omega)]
      · exact hplace
  refine h.next p h.used hphase (Function.update_self _ _ _) hself (fun q hq => ?_) ?_ h.strayed
  · have hdrop : ∀ m r, w.phase r = .dropping m true → w'.phase r = .dropping m true := fun m r hr => by
      have hrp : r ≠ p := by
        rintro rfl
        rw [hp] at hr
        cases hr
      rw [hphase r hrp]
      exact hr
    have hheld : (w.phase p).holds = some n := by rw [hp]; rfl
    have hown : (w.phase p).owns = some n := by rw [hp]; rfl
    refine ⟨(h.phase q).stage, (h.phase q).used, fun m hm => ?_, fun m hm => ?_, fun m hm => ?_⟩
    · have hmn : m ≠ n := by
        rintro rfl
        exact hq (h.holds_unique hm hheld)
      rw [hfile, if_neg hmn]
      exact (h.phase q).holds m hm
    · by_cases hmn : m = n
      · have hcontent := (h.phase q).content m hm
        have hheldq : (w.phase q).holds ≠ some n := fun hh => hq (h.holds_unique hh hheld)
        have hownq : (w.phase q).owns ≠ some n := fun hh => hq (h.single q p n hh hown)
        rw [hmn] at hm
        generalize w.phase q = ph at hm hheldq hownq hcontent
        cases ph with
        | opened | measured => trivial
        | locked | removing | unmarked => exact absurd hm hheldq
        | _ => exact absurd hm hownq
      · rw [hfile, if_neg hmn]
        exact (h.phase q).content m hm
    · have hplace := (h.phase q).place m hm
      by_cases hmn : m = n
      · rw [hmn] at hm hplace ⊢
        refine h.others (p := p) (.inl hown) hq hm fun _ d hd => .inl ?_
        obtain ⟨d', hd', hlease⟩ := hfits.place n rfl
        obtain rfl := Option.some.inj (hd'.symm.trans hd)
        exact hlease
      · refine placeOk_congr (w := w) rfl ?_ (hdrop m) hplace
        rw [hfile, if_neg hmn]
  · refine h.owns_kept fun m hm => ?_
    rw [hp]
    split_ifs at hm <;> exact hm

theorem mem_used_of_dir (h : Inv w) (hdir : w.dir n = some d) : n ∈ w.used := by
  refine h.used n ?_
  rw [dir_eq] at hdir
  split at hdir
  · rename_i hparent
    rw [hparent]
    rfl
  · cases hdir

/-- A process changes the directory that it owns. -/
theorem Inv.setOwn (h : Inv w) (hp : w.phase p = ph) (hown : ph.owns = some n) (hdir : w.dir n = some d)
    (hself : Fits ((w.setDir n d').setPhase p ph') p ph') (hown' : ph'.owns = some n)
    (hdrop : ∀ m, ph = .dropping m true → ph' = .dropping m true)
    (hknown : Known w n → Known ((w.setDir n d').setPhase p ph') n) :
    Inv ((w.setDir n d').setPhase p ph') :=
  h.change (mem_used_of_dir h hdir) rfl rfl rfl rfl rfl hself (fun m hm => hdrop m (hp ▸ hm))
    (fun m hm => by rw [hp, hown, ← hm, hown'])
    fun q hq hname => h.others (p := p) (.inl (by rw [hp, hown])) hq hname hknown

theorem setPhase_self (hp : w.phase p = ph) : w.setPhase p ph = w := by
  rw [World.setPhase, ← phase_update hp]

/-- A live stage is changed, and keeps its lease. -/
theorem Inv.tend (h : Inv w) (hp : w.phase p = .live n) (hdir : w.dir n = some d)
    (hlease : d'.lease = d.lease) : Inv (w.setDir n d') := by
  have hfits := Fits.of_phase h hp
  have hregular : d'.lease = .regular := by
    obtain ⟨d₀, hd₀, hd⟩ := hfits.place n rfl
    obtain rfl := Option.some.inj (hdir.symm.trans hd₀)
    rw [hlease, hd]
  have hdir' : (w.setDir n d').dir n = some d' := by rw [dir_update (w := w) rfl, if_pos rfl]
  rw [← setPhase_self (w := w.setDir n d') hp]
  refine h.setOwn hp rfl hdir ?_ rfl (fun _ hm => hm) fun _ d₁ hd₁ => ?_
  · refine hfits.keep (fun _ hm => hm) (fun _ _ hm => hm) (fun _ _ => rfl) fun m hm _ => ?_
    obtain rfl := Option.some.inj hm
    exact ⟨d', hdir', hregular⟩
  · obtain rfl := Option.some.inj (hdir'.symm.trans hd₁)
    exact .inl hregular

/-- A stage that is dropped is changed. -/
theorem Inv.clear {locked : Bool} (h : Inv w) (hp : w.phase p = .dropping n locked)
    (hdir : w.dir n = some d) (hlease : d'.lease ≠ .foreign) (hknown : Known w n → Known (w.setDir n d') n) :
    Inv (w.setDir n d') := by
  rw [← setPhase_self (w := w.setDir n d') hp]
  refine h.setOwn hp rfl hdir ?_ rfl (fun _ hm => hm) fun hk => ?_
  · refine (Fits.of_phase h hp).keep (fun _ hm => hm) (fun _ _ hm => hm) (fun _ _ => rfl)
      fun m hm _ d₁ hd₁ => ?_
    obtain rfl := Option.some.inj hm
    have hdir' : (w.setDir n d').dir n = some d' := by rw [dir_update (w := w) rfl, if_pos rfl]
    obtain rfl := Option.some.inj (hdir'.symm.trans hd₁)
    exact hlease
  · rw [setPhase_self (w := w.setDir n d') hp]
    exact hknown hk

/-- A drop takes the lease out. -/
theorem Inv.unmark {locked : Bool} (h : Inv w) (hp : w.phase p = .dropping n locked)
    (hdir : w.dir n = some d) : Inv (w.setDir n (d.mark .none)) := by
  refine h.clear hp hdir nofun fun _ d₁ hd₁ => ?_
  have hdir' : (w.setDir n (d.mark .none)).dir n = some (d.mark .none) := by
    rw [dir_update (w := w) rfl, if_pos rfl]
  obtain rfl := Option.some.inj (hdir'.symm.trans hd₁)
  have hcontent := (Fits.of_phase h hp).content n rfl
  cases locked
  · exact .inr ⟨rfl, .inr (.inl hcontent)⟩
  · exact .inr ⟨rfl, .inr (.inr ⟨p, hp⟩)⟩

/-- A drop removes the directory. -/
theorem Inv.cleared {locked : Bool} (h : Inv w) (hp : w.phase p = .dropping n locked)
    (hdir : w.dir n = some d) : Inv (w.removeDir n) := by
  have hgone : (w.removeDir n).dir n = none := by
    rw [dir_eq]
    simp [World.removeDir]
  refine h.change (p := p) (e := none) (mem_used_of_dir h hdir) rfl rfl rfl
    (phase_update hp) rfl ?_ (fun m hm => hp ▸ hm) (fun m hm => hp ▸ hm) fun q hq hname => ?_
  · refine (Fits.of_phase h hp).keep (fun _ hm => hm) (fun _ _ hm => hm) (fun _ _ => rfl)
      fun m hm _ d₁ hd₁ => ?_
    obtain rfl := Option.some.inj hm
    rw [hgone] at hd₁
    cases hd₁
  · refine h.others (p := p) (.inl (by rw [hp]; rfl)) hq hname fun _ d₁ hd₁ => ?_
    rw [hgone] at hd₁
    cases hd₁

theorem Inv.use (h : Inv w) (u : World.Use) : Inv (w.use p u) := by
  unfold World.use
  split
  · -- make
    rename_i name c hp
    split
    · rename_i hname
      exact h.make hp hname.2
    · exact h
  · -- equip, the lease
    rename_i name hp
    have hfits := Fits.of_phase h hp
    split
    · rename_i d hdir
      refine h.setOwn hp rfl hdir ⟨fun _ _ hm => by (cases hm), fun m hm => ?_, fun _ hm => by (cases hm),
        fun m hm => ?_, fun m hm => ?_⟩ rfl (fun _ hm => by (cases hm)) fun _ d' hd' => ?_
      · exact hfits.used m hm
      · exact hfits.content m hm
      · obtain rfl := Option.some.inj hm
        exact ⟨d.mark .regular, by rw [dir_update (w := w) rfl, if_pos rfl], rfl⟩
      · rw [dir_update (w := w) rfl, if_pos rfl] at hd'
        obtain rfl := Option.some.inj hd'
        exact .inl rfl
    · rename_i hdir
      obtain ⟨d, hd, -⟩ := hfits.place name rfl
      rw [hd] at hdir
      cases hdir
  · -- equip, the lock
    rename_i name hp
    have hfits := Fits.of_phase h hp
    split
    · rename_i hfree
      refine h.lock hfree ⟨fun _ _ hm => by (cases hm), fun m hm => hfits.used m hm, fun m hm => ?_,
        fun m hm => ?_, fun m hm => hfits.place m hm⟩ (fun m hm => ?_) fun m hm => by rw [hp]; exact hm
      · obtain rfl := Option.some.inj hm
        show ((w.setFile name { w.file name with holder := some p }).file name).holder = some p
        rw [file_setFile, if_pos rfl]
      · obtain rfl := Option.some.inj hm
        show ((w.setFile name { w.file name with holder := some p }).file name).content.length < _
        rw [file_setFile, if_pos rfl]
        exact hfits.content name rfl
      · rw [hp] at hm
        cases hm
    · refine h.setPhase ⟨fun _ _ hm => by (cases hm), fun m hm => hfits.used m hm,
        fun _ hm => by (cases hm), fun m hm => hfits.content m hm, fun m hm d hd => ?_⟩ (fun m hm => ?_)
        fun m hm => by rw [hp]; exact hm
      · obtain ⟨d', hd', hlease⟩ := hfits.place m hm
        obtain rfl := Option.some.inj (hd'.symm.trans hd)
        rw [hlease]
        exact nofun
      · rw [hp] at hm
        cases hm
  · -- write
    rename_i bytes name hp
    exact h.write hp bytes
  · -- fill
    rename_i path kind name hp
    split
    · rename_i d hdir
      exact h.tend hp hdir (lease_insert path kind)
    · exact h
  · -- take out
    rename_i path name hp
    split
    · rename_i d hdir
      exact h.tend hp hdir (lease_remove path)
    · exact h
  · -- drop
    rename_i name hp
    have hfits := Fits.of_phase h hp
    refine h.setPhase ⟨fun _ _ hm => by (cases hm), hfits.used, hfits.holds, hfits.content,
      fun m hm d hd => ?_⟩ (fun m hm => ?_) fun m hm => by rw [hp]; exact hm
    · obtain ⟨d', hd', hlease⟩ := hfits.place m hm
      obtain rfl := Option.some.inj (hd'.symm.trans hd)
      rw [hlease]
      exact nofun
    · rw [hp] at hm
      cases hm
  · -- drop, an entry
    rename_i path name locked hp
    split
    · rename_i d hdir
      split_ifs
      · refine h.clear hp hdir ?_ fun hk => ?_
        · rw [lease_remove]
          exact (Fits.of_phase h hp).place name rfl d hdir
        · refine @known_remove w _ name d path hdir ?_ rfl (fun _ hr => hr) hk
          rw [dir_update (w := w) rfl, if_pos rfl]
      · exact h
    · exact h
  · -- drop, the lease
    rename_i name locked hp
    split
    · rename_i d hdir
      exact h.unmark hp hdir
    · exact h
  · -- drop, the directory
    rename_i name locked hp
    split
    · rename_i d hdir
      split_ifs
      · exact h.cleared hp hdir
      · exact h
    · exact h
  · -- release
    rename_i name locked hp
    split_ifs with hgone
    · refine h.stop fun m d hm hd => ?_
      rw [hp] at hm
      cases hm
      rw [hd] at hgone
      cases hgone
    · exact h
  · exact h

end uses

section recovers

variable {stack path : List String} {pending : Option (String × Bool)} {count : ℕ}

/-- No link leads to a directory of a tree. -/
theorem not_throughLink (h : d.tree.isFolder path = true) : World.throughLink d path = false := by
  unfold World.throughLink
  rw [List.any_eq_false]
  intro q hq
  have hfolder := PathTree.isFolder_above h ((List.mem_inits _ _).1 hq)
  rw [PathTree.isFolder, Option.any_eq_true] at hfolder
  obtain ⟨k, hk, hdir⟩ := hfolder
  rw [hk]
  cases k <;> simp_all [Kind.isDir]

/-- What is taken out leaves the directories that it is not in. -/
theorem isFolder_remove {p : List String} (h : d.tree.isFolder p = true) (hp : ¬path <+: p) :
    (d.remove path).tree.isFolder p = true := by
  unfold Dir.remove
  split
  · exact h
  · rw [PathTree.isFolder, PathTree.node_remove, if_neg hp]
    exact h

/-- A recovery removes a directory that its removal has in hand. -/
theorem Inv.removing (h : Inv w) (hp : w.phase p = .removing c n stack pending count) :
    (w.phase p).holds = some n ∧ (w.phase p).owns = none ∧ (w.file n).content = Skills.marker := by
  have hcontent := (Fits.of_phase h hp).content n rfl
  rw [hp]
  exact ⟨rfl, rfl, hcontent⟩

/-- A removal goes on with the same lease and less in its directory. -/
theorem Inv.shrink {stack' : List String} {item : Item} (h : Inv w)
    (hp : w.phase p = .removing c n stack pending count) (hdir : w.dir n = some d)
    (hstack : d.tree.isFolder stack' = true) (hpath : ¬path <+: stack') :
    Inv (((w.setDir n (d.remove path)).log p n item).setPhase p (.removing c n stack' none count)) := by
  have hfits := Fits.of_phase h hp
  set w' := ((w.setDir n (d.remove path)).log p n item).setPhase p (.removing c n stack' none count) with hw'
  have hdir' : w'.dir n = some (d.remove path) := by rw [dir_update (w := w) rfl, if_pos rfl]
  have hdrop (r : ℕ) (hr : w.phase r = .dropping n true) : w'.phase r = .dropping n true := by
    have hrp : r ≠ p := by
      rintro rfl
      rw [hp] at hr
      cases hr
    rw [← hr]
    exact Function.update_of_ne hrp _ _
  refine h.change (p := p) (mem_used_of_dir h hdir) rfl rfl rfl rfl rfl ?_
    (fun m hm => by rw [hp] at hm; cases hm) (fun m hm => by cases hm) fun q hq hname =>
      h.others (p := p) (.inr (h.removing hp)) hq hname (known_remove hdir hdir' rfl hdrop)
  refine ⟨hfits.stage, hfits.used, hfits.holds, hfits.content, fun m hm => ?_⟩
  obtain rfl := Option.some.inj hm
  refine ⟨known_remove hdir hdir' rfl hdrop (hfits.place n rfl).1, fun d₁ hd₁ => ⟨?_, nofun⟩⟩
  obtain rfl := Option.some.inj (hdir'.symm.trans hd₁)
  exact isFolder_remove hstack hpath

theorem Inv.recover (h : Inv w) (name : String) : Inv (w.recover p name) := by
  have hspared (hdrop : ∀ n, w.phase p ≠ .dropping n true) : Spared w p := spared_of_ne hdrop
  unfold World.recover
  split
  · -- scanning
    rename_i c hp
    have hdrop (n : String) : w.phase p ≠ .dropping n true := by
      rw [hp]
      exact nofun
    dsimp only
    split_ifs with hend hstage
    · exact h
    · refine h.setPhase ⟨fun c' n hn => ?_, fun _ hn => by (cases hn), fun _ hn => by (cases hn),
        fun _ hn => by (cases hn), fun _ hn => by (cases hn)⟩ hdrop fun _ hn => by cases hn
      cases hn
      exact hstage.1
    · exact h.setPhase fits_scanning hdrop fun _ hn => by cases hn
  · -- found
    rename_i c n hp
    have hfits := Fits.of_phase h hp
    have hdrop (n : String) : w.phase p ≠ .dropping n true := by
      rw [hp]
      exact nofun
    split
    · rename_i d hdir
      split_ifs with hlease
      · refine h.setPhase ⟨hfits.stage, fun m hm => ?_, fun _ hm => by (cases hm), fun _ _ => trivial,
          fun m hm d₁ hd₁ => ?_⟩ hdrop fun _ hm => by cases hm
        · obtain rfl := Option.some.inj hm
          exact mem_used_of_dir h hdir
        · obtain rfl := Option.some.inj hm
          obtain rfl := Option.some.inj (hdir.symm.trans hd₁)
          exact .inl hlease
      · exact h.setPhase fits_scanning hdrop fun _ hm => by cases hm
    · exact h.setPhase fits_scanning hdrop fun _ hm => by cases hm
  · -- opened
    rename_i c n hp
    have hfits := Fits.of_phase h hp
    have hdrop (n : String) : w.phase p ≠ .dropping n true := by
      rw [hp]
      exact nofun
    split_ifs
    · exact h.setPhase ⟨hfits.stage, hfits.used, hfits.holds, hfits.content, hfits.place⟩ hdrop
        fun _ hm => by cases hm
    · exact h.setPhase fits_scanning hdrop fun _ hm => by cases hm
  · -- measured
    rename_i c n hp
    have hfits := Fits.of_phase h hp
    have hdrop (n : String) : w.phase p ≠ .dropping n true := by
      rw [hp]
      exact nofun
    split_ifs with hfree
    · refine h.lock hfree ⟨hfits.stage, hfits.used, fun m hm => ?_, fun _ _ => trivial, fun m hm => ?_⟩
        hdrop fun _ hm => by cases hm
      · obtain rfl := Option.some.inj hm
        show ((w.setFile n { w.file n with holder := some p }).file n).holder = some p
        rw [file_setFile, if_pos rfl]
      · obtain rfl := Option.some.inj hm
        have hplace : (Phase.locked c n).placeOk w n := hfits.place n rfl
        refine placeOk_congr (w := w) rfl ?_ (fun r hr => ?_) hplace
        · show ((w.setFile n { w.file n with holder := some p }).file n).content = _
          rw [file_setFile, if_pos rfl]
        · have hrp : r ≠ p := by
            rintro rfl
            exact hdrop n hr
          rw [← hr]
          exact Function.update_of_ne hrp _ _
    · exact h.setPhase fits_scanning hdrop fun _ hm => by cases hm
  · -- locked
    rename_i c n hp
    have hfits := Fits.of_phase h hp
    have hdrop (n : String) : w.phase p ≠ .dropping n true := by
      rw [hp]
      exact nofun
    split_ifs with hcontent hdir
    · exact h.unlock (hspared hdrop) fits_scanning fun _ hm => by cases hm
    · refine h.setPhase ⟨hfits.stage, hfits.used, hfits.holds, fun m hm => ?_,
        fun m hm => ⟨hfits.place m hm, fun d _ => ⟨d.root, nofun⟩⟩⟩ hdrop fun _ hm => by cases hm
      obtain rfl := Option.some.inj hm
      exact not_not.1 hcontent
    · exact h.stop (hspared hdrop)
  · -- removing, the next entry of a directory
    rename_i c n stack count hp
    have hfits := Fits.of_phase h hp
    have hdrop (n : String) : w.phase p ≠ .dropping n true := by
      rw [hp]
      exact nofun
    split
    · exact h.stop (hspared hdrop)
    · rename_i d hdir
      obtain ⟨hstack, -⟩ := (hfits.place n rfl).2 d hdir
      split_ifs with hlease hmem hcount hleft hroot hnone hlink
      · exact h
      · exact h.stop (hspared hdrop)
      · refine h.setPhase ⟨hfits.stage, hfits.used, hfits.holds, hfits.content, fun m hm => ?_⟩ hdrop
          fun _ hm => by cases hm
        obtain rfl := Option.some.inj hm
        refine ⟨(hfits.place n rfl).1, fun d₁ hd₁ => ?_⟩
        obtain rfl := Option.some.inj (hdir.symm.trans hd₁)
        refine ⟨hstack, fun child hchild => ?_⟩
        obtain ⟨rfl, hfolder⟩ := Prod.mk.inj (Option.some.inj hchild)
        exact hfolder
      · exact h
      · exact h.stop (hspared hdrop)
      · -- the lease
        have hempty : d.empty := by
          rw [hroot] at hleft
          exact not_not.1 hleft
        set w' := ((w.setDir n (d.mark .none)).log p n .lease).setPhase p (.unmarked c n) with hw'
        have hdir' : w'.dir n = some (d.mark .none) := by rw [dir_update (w := w) rfl, if_pos rfl]
        refine h.change (p := p) (mem_used_of_dir h hdir) rfl rfl rfl rfl rfl
          ⟨hfits.stage, hfits.used, hfits.holds, hfits.content, fun m hm d₁ hd₁ => ?_⟩
          (fun m hm => absurd hm (hdrop m)) (fun m hm => by cases hm) fun q hq hname =>
            h.others (p := p) (.inr (h.removing hp)) hq hname fun _ d₁ hd₁ => .inr ?_
        · obtain rfl := Option.some.inj hm
          obtain rfl := Option.some.inj (hdir'.symm.trans hd₁)
          exact ⟨rfl, hempty⟩
        · obtain rfl := Option.some.inj (hdir'.symm.trans hd₁)
          exact ⟨rfl, .inl hempty⟩
      · rw [not_throughLink hstack] at hlink
        cases hlink
      · -- a directory that is empty
        have hshort : stack.dropLast.length < stack.length := by
          rw [List.length_dropLast]
          exact Nat.sub_lt (List.length_pos_iff.2 hroot) Nat.one_pos
        refine h.shrink hp hdir (PathTree.isFolder_above hstack (List.dropLast_prefix stack)) fun hpre => ?_
        exact absurd hpre.length_le (by omega)
  · -- removing, an entry that has been read
    rename_i c n stack child isDir count hp
    have hfits := Fits.of_phase h hp
    have hdrop (n : String) : w.phase p ≠ .dropping n true := by
      rw [hp]
      exact nofun
    split
    · exact h.stop (hspared hdrop)
    · rename_i d hdir
      obtain ⟨hstack, hchild⟩ := (hfits.place n rfl).2 d hdir
      dsimp only
      split_ifs with hkind hdepth hlink hfolder hlink hgone
      · exact h.stop (hspared hdrop)
      · rw [not_throughLink (hchild child (by rw [hkind]))] at hlink
        cases hlink
      · refine h.setPhase ⟨hfits.stage, hfits.used, hfits.holds, hfits.content, fun m hm => ?_⟩ hdrop
          fun _ hm => by cases hm
        obtain rfl := Option.some.inj hm
        refine ⟨(hfits.place n rfl).1, fun d₁ hd₁ => ⟨?_, nofun⟩⟩
        obtain rfl := Option.some.inj (hdir.symm.trans hd₁)
        exact hfolder
      · exact h.stop (hspared hdrop)
      · rw [not_throughLink hstack] at hlink
        cases hlink
      · exact h.stop (hspared hdrop)
      · refine h.shrink hp hdir hstack fun hpre => ?_
        have hlen := hpre.length_le
        simp at hlen
  · -- the directory itself
    rename_i c n hp
    have hfits := Fits.of_phase h hp
    have hdrop (n : String) : w.phase p ≠ .dropping n true := by
      rw [hp]
      exact nofun
    split
    · exact h.stop (hspared hdrop)
    · rename_i d hdir
      split_ifs with hempty
      · have hgone : ((w.removeDir n).log p n .root).dir n = none := by
          rw [dir_eq]
          simp [World.removeDir, World.log]
        have hremoved : Inv ((w.removeDir n).log p n .root) := by
          refine h.change (p := p) (mem_used_of_dir h hdir) rfl rfl rfl
            (phase_update hp) rfl ⟨hfits.stage, hfits.used, hfits.holds, hfits.content, fun m hm d₁ hd₁ => ?_⟩
            (fun m hm => absurd hm (hdrop m)) (fun m hm => by cases hm) fun q hq hname => ?_
          · obtain rfl := Option.some.inj hm
            rw [hgone] at hd₁
            cases hd₁
          · have hcontent : (w.file n).content = Skills.marker := hfits.content n rfl
            refine h.others (p := p) (.inr ⟨by rw [hp]; rfl, by rw [hp]; rfl, hcontent⟩) hq hname
              fun _ d₁ hd₁ => ?_
            rw [hgone] at hd₁
            cases hd₁
        exact hremoved.unlock (spared_of_ne hdrop) fits_scanning fun _ hm => by cases hm
      · exact h.stop (hspared hdrop)
  · exact h

/-- A step fails: what is being made is dropped, and its lease is not complete. -/
theorem Inv.fail (h : Inv w) (hspared : Spared w p) : Inv (w.fail p) := by
  have hleave {n : String} (hn : (w.phase p).name? = some n) (hown : (w.phase p).owns = some n)
      (hshort : (w.file n).content.length < Skills.marker.length)
      (hplace : ∀ d, w.dir n = some d → d.lease ≠ .foreign) :
      Inv ((w.unlock p).setPhase p (.dropping n false)) := by
    refine h.unlock hspared ⟨fun _ _ hm => by (cases hm), fun m hm => ?_, fun _ hm => by (cases hm),
      fun m hm => ?_, fun m hm d hd => ?_⟩ fun m hm => by rw [hown, ← hm]; rfl
    · obtain rfl := Option.some.inj hm
      exact (h.phase p).used n hn
    · obtain rfl := Option.some.inj hm
      show ((w.unlock p).file n).content.length < _
      rw [unlock_content]
      exact hshort
    · obtain rfl := Option.some.inj hm
      exact hplace d hd
  unfold World.fail
  split
  · exact h
  · exact h
  all_goals first | exact h.stop hspared | skip
  all_goals
    rename_i n hp
    have hfits := Fits.of_phase h hp
    refine hleave (by rw [hp]; rfl) (by rw [hp]; rfl) (hfits.content n rfl) fun d hd => ?_
    obtain ⟨d', hd', hlease⟩ := hfits.place n rfl
    obtain rfl := Option.some.inj (hd'.symm.trans hd)
    rw [hlease]
    exact nofun

end recovers

/-- No process ends within a drop behind its lease while a recovery has that lease open. -/
def Careful (w : World) : Act → Prop
  | .fail p | .kill p => Spared w p
  | _ => True

theorem Inv.step {a : Act} (h : Inv w) (hcare : Careful w a) : Inv (step w a) := by
  cases a with
  | start p front =>
    unfold SkillStaging.step
    dsimp only
    split
    · rename_i hp
      refine h.setPhase fits_scanning (fun n => ?_) fun _ hm => by cases hm
      rw [hp]
      exact nofun
    · exact h
  | recover p name => exact h.recover name
  | use p u => exact h.use u
  | fail p => exact h.fail hcare
  | kill p => exact h.stop hcare

end SkillStaging

end LatteWork
