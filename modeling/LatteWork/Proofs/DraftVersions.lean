import LatteWork.Desktop.Drafts
import Mathlib.Logic.Relation

/-!
# Versions of drafts

An update that edits makes an object of a new version, any other one an object of the version it was
made from. So two objects have one version exactly when such updates alone lie between them, and what
was sent is taken out exactly while that holds of the draft under its key.
-/

namespace LatteWork

variable {ε : Type*}

namespace Draft

variable [DecidableEq ε]

theorem sameReferences_iff {previous next : DraftReferences ε} :
    sameReferences previous next = true ↔ next.entries = previous.entries ∧
      (next.scope = previous.scope ∨
        next.entries = [] ∧ (previous.scope = "" ∨ next.scope = "")) := by
  have hentries : (previous.entries.length = next.entries.length ∧
      ∀ entry ∈ next.entries.zipIdx, previous.entries[entry.2]? = some entry.1) ↔
        next.entries = previous.entries := by
    constructor
    · rintro ⟨hlength, hall⟩
      refine List.ext_getElem hlength.symm fun i hnext hprevious => ?_
      have hmem : (next.entries[i], i) ∈ next.entries.zipIdx :=
        List.mk_mem_zipIdx_iff_getElem?.2 (List.getElem?_eq_getElem hnext)
      have hsame := hall _ hmem
      rw [List.getElem?_eq_getElem hprevious] at hsame
      exact (Option.some.inj hsame).symm
    · intro h
      rw [h]
      exact ⟨rfl, fun entry hentry => List.mem_zipIdx_iff_getElem?.1 hentry⟩
  simp only [sameReferences, Bool.and_eq_true, Bool.or_eq_true, decide_eq_true_eq,
    List.all_eq_true, List.isEmpty_iff, hentries]

/-- An update changes what a draft says. The scope of no references is set, or taken away, without
that. -/
def Edited (a b : Draft ε) : Prop :=
  a.text ≠ b.text ∨ a.skillCreator ≠ b.skillCreator ∨
    a.references.entries ≠ b.references.entries ∨
    a.references.scope ≠ b.references.scope ∧
      (a.references.entries ≠ [] ∨ a.references.scope ≠ "" ∧ b.references.scope ≠ "")

instance (a b : Draft ε) : Decidable (a.Edited b) := by
  unfold Edited
  infer_instance

theorem sameContent_iff {a b : Draft ε} : a.sameContent b = true ↔ ¬a.Edited b := by
  simp only [sameContent, Bool.and_eq_true, decide_eq_true_eq, sameReferences_iff, Edited, not_or,
    not_and_or, not_not]
  grind

end Draft

/-- The key an operation is about. -/
def DraftOp.key : DraftOp ε → Option String
  | .update key _ | .adopt key _ | .clear key _ => some key
  | .object _ => none

namespace DraftStore

variable {s : DraftStore ε} {o : DraftOp ε} {key : String} {d submitted : ℕ}

/-- Every address is of an object, and the versions are of objects that were made by updates. -/
structure Valid (s : DraftStore ε) : Prop where
  some : 0 < s.objects.length
  drafts : ∀ p ∈ s.drafts, p.2 < s.objects.length
  versions : ∀ p ∈ s.versions, p.1 < s.objects.length ∧ p.2 < s.objects.length

theorem Valid.get_lt (h : s.Valid) (key : String) : s.get key < s.objects.length := by
  unfold get
  cases hl : s.drafts.lookup key with
  | none => exact h.some
  | some d => exact h.drafts _ (Assoc.mem_of_lookup hl)

theorem Valid.version_lt (h : s.Valid) (hd : d < s.objects.length) :
    s.version d < s.objects.length := by
  unfold version
  cases hl : s.versions.lookup d with
  | none => exact hd
  | some v => exact (h.versions _ (Assoc.mem_of_lookup hl)).2

variable [DecidableEq ε]

/-- An operation is an update of the key that edits its draft. -/
def Edits (s : DraftStore ε) (key : String) (o : DraftOp ε) : Prop :=
  ∃ patch, o = .update key patch ∧
    (s.draft (s.get key)).Edited ((s.draft (s.get key)).patched patch)

instance (s : DraftStore ε) (key : String) (o : DraftOp ε) : Decidable (s.Edits key o) :=
  match o with
  | .update k patch =>
    decidable_of_iff (k = key ∧ (s.draft (s.get key)).Edited ((s.draft (s.get key)).patched patch))
      ⟨fun ⟨hk, he⟩ => ⟨patch, by rw [hk], he⟩, fun ⟨_, heq, he⟩ => by
        obtain ⟨rfl, rfl⟩ := DraftOp.update.inj heq
        exact ⟨rfl, he⟩⟩
  | .adopt .. | .clear .. | .object _ => isFalse fun ⟨_, heq, _⟩ => by cases heq

/-- The object an update without an edit is of, and the one it makes. -/
def retouched (s : DraftStore ε) (o : DraftOp ε) : Option (ℕ × ℕ) :=
  match o with
  | .update key patch =>
    if (s.draft (s.get key)).Edited ((s.draft (s.get key)).patched patch) then none
    else some (s.get key, s.objects.length)
  | _ => none

/-- An operation gives a key without a draft one, or takes the draft out. -/
def replaces (s : DraftStore ε) (key : String) (o : DraftOp ε) : Bool :=
  match o with
  | .adopt k _ => k = key && !s.has key
  | .clear k submitted => k = key && s.has key && s.isCurrent key submitted
  | _ => false

/-- What one operation does with the objects and their versions. -/
theorem step_objects (h : s.Valid) (o : DraftOp ε) :
    (s.step o).Valid ∧ s.objects.length ≤ (s.step o).objects.length ∧
      ∀ d < s.objects.length, (s.step o).version d = s.version d := by
  cases o with
  | update key patch =>
    have hget := h.get_lt key
    have hversion := h.version_lt hget
    refine ⟨⟨?_, fun p hp => ?_, fun p hp => ?_⟩, ?_, fun d hd => ?_⟩
    · simp [step, update]
    · simp only [step, update, Assoc.mem_put, List.length_append, List.length_singleton] at hp ⊢
      rcases hp with ⟨hp, -⟩ | rfl
      · exact Nat.lt_succ_of_lt (h.drafts p hp)
      · exact Nat.lt_succ_self _
    · simp only [step, update, Assoc.mem_put, List.length_append, List.length_singleton] at hp ⊢
      rcases hp with ⟨hp, -⟩ | rfl
      · exact ⟨Nat.lt_succ_of_lt (h.versions p hp).1, Nat.lt_succ_of_lt (h.versions p hp).2⟩
      · refine ⟨Nat.lt_succ_self _, ?_⟩
        split <;> omega
    · simp [step, update]
    · simp [step, update, version, Assoc.lookup_put, Nat.ne_of_lt hd]
  | adopt key draft =>
    simp only [step, adopt]
    split
    · rename_i hd
      split
      · exact ⟨h, Nat.le_refl _, fun _ _ => rfl⟩
      · refine ⟨⟨h.some, fun p hp => ?_, h.versions⟩, Nat.le_refl _, fun _ _ => rfl⟩
        rcases Assoc.mem_put.1 hp with ⟨hp, -⟩ | rfl
        · exact h.drafts p hp
        · exact hd
    · exact ⟨h, Nat.le_refl _, fun _ _ => rfl⟩
  | clear key submitted =>
    simp only [step, clear]
    split
    · split
      · exact ⟨⟨h.some, fun p hp => h.drafts p (Assoc.mem_drop.1 hp).1, h.versions⟩, Nat.le_refl _,
          fun _ _ => rfl⟩
      · exact ⟨h, Nat.le_refl _, fun _ _ => rfl⟩
    · exact ⟨h, Nat.le_refl _, fun _ _ => rfl⟩
  | object draft =>
    refine ⟨⟨?_, fun p hp => ?_, fun p hp => ?_⟩, ?_, fun _ _ => rfl⟩
    · simp [step]
    · simpa [step] using Nat.lt_succ_of_lt (h.drafts p hp)
    · have hboth : p.1 < s.objects.length + 1 ∧ p.2 < s.objects.length + 1 :=
        ⟨Nat.lt_succ_of_lt (h.versions p hp).1, Nat.lt_succ_of_lt (h.versions p hp).2⟩
      simpa [step] using hboth
    · simp [step]

/-- Only an update of a key, or what replaces its draft, puts another object under it. -/
theorem step_lookup (hr : s.replaces key o = false) (hu : ∀ patch, o ≠ .update key patch) :
    (s.step o).drafts.lookup key = s.drafts.lookup key := by
  cases o with
  | update k patch =>
    have hk : key ≠ k := fun hk => hu patch (by rw [hk])
    simp [step, update, Assoc.lookup_put, hk]
  | adopt k draft =>
    simp only [step, adopt]
    split
    · split
      · rfl
      · rename_i hhas
        have hk : key ≠ k := by
          rintro rfl
          simp [replaces, hhas] at hr
        simp [Assoc.lookup_put, hk]
    · rfl
  | clear k submitted =>
    simp only [step, clear]
    split
    · split
      · rename_i hcurrent
        rw [Assoc.lookup_drop]
        split
        · rename_i hk
          subst hk
          simp only [replaces, decide_true, hcurrent, Bool.true_and, Bool.and_true, has] at hr
          exact (Option.not_isSome_iff_eq_none.1 (Bool.eq_false_iff.1 hr)).symm
        · rfl
      · rfl
    · rfl
  | object draft => rfl

/-- The version under a key goes on through every operation on it but an edit, whose object is new. -/
theorem step_version (h : s.Valid) (hr : s.replaces key o = false) :
    (¬s.Edits key o → (s.step o).version ((s.step o).get key) = s.version (s.get key)) ∧
      (s.Edits key o → (s.step o).version ((s.step o).get key) = s.objects.length) := by
  by_cases hu : ∃ patch, o = .update key patch
  · obtain ⟨patch, rfl⟩ := hu
    have hget : (s.step (.update key patch)).get key = s.objects.length := by
      simp [step, update, get, Assoc.lookup_put]
    rw [hget]
    simp only [step, update, version, Assoc.lookup_put, if_true, Option.getD_some]
    constructor
    · intro hedit
      rw [if_pos (Draft.sameContent_iff.2 fun he => hedit ⟨patch, rfl, he⟩)]
    · rintro ⟨_, heq, he⟩
      obtain rfl := (DraftOp.update.inj heq).2
      rw [if_neg fun hsame => Draft.sameContent_iff.1 hsame he]
  · rw [not_exists] at hu
    have hget : (s.step o).get key = s.get key := by rw [get, step_lookup hr hu, get]
    rw [hget, (step_objects h o).2.2 _ (h.get_lt key)]
    exact ⟨fun _ => rfl, fun ⟨patch, heq, _⟩ => absurd heq (hu patch)⟩

/-- A version that was made later than an object stays later than it. -/
theorem after_newer {n : ℕ} {ops : List (DraftOp ε)} (h : s.Valid)
    (hr : Runs.Throughout step (fun s o => s.replaces key o = false) s ops)
    (hn : n ≤ s.version (s.get key)) : n ≤ (s.after ops).version ((s.after ops).get key) := by
  refine (Runs.throughout_keeps (P := fun t : DraftStore ε => t.Valid ∧ n ≤ t.version (t.get key))
    (fun t o ⟨ht, hn⟩ hr => ⟨(step_objects ht o).1, ?_⟩) ⟨h, hn⟩ hr).2
  by_cases he : t.Edits key o
  · rw [(step_version ht hr).2 he]
    exact Nat.le_trans hn (Nat.le_of_lt (ht.version_lt (ht.get_lt key)))
  · rw [(step_version ht hr).1 he]
    exact hn

theorem after_objects (h : s.Valid) (ops : List (DraftOp ε)) :
    (s.after ops).Valid ∧ s.objects.length ≤ (s.after ops).objects.length ∧
      ∀ d < s.objects.length, (s.after ops).version d = s.version d := by
  refine Runs.run_keeps (P := fun t : DraftStore ε => t.Valid ∧ s.objects.length ≤ t.objects.length ∧
    ∀ d < s.objects.length, t.version d = s.version d) ⟨h, Nat.le_refl _, fun _ _ => rfl⟩
    (fun t o ⟨ht, hle, hv⟩ => ?_) ops
  obtain ⟨ht', hle', hv'⟩ := step_objects ht o
  exact ⟨ht', Nat.le_trans hle hle', fun d hd => (hv' d (Nat.lt_of_lt_of_le hd hle)).trans (hv d hd)⟩

/-- The draft under a key is still of the version it had, exactly when no update edited it. -/
theorem version_after_iff : ∀ {ops : List (DraftOp ε)} {s : DraftStore ε}, s.Valid →
    Runs.Throughout step (fun s o => s.replaces key o = false) s ops →
    ((s.after ops).version ((s.after ops).get key) = s.version (s.get key) ↔
      Runs.Throughout step (fun s o => ¬s.Edits key o) s ops)
  | [], _, _, _ => iff_of_true rfl trivial
  | o :: ops, s, h, ⟨hr, hrest⟩ => by
    have hvalid := (step_objects h o).1
    by_cases he : s.Edits key o
    · have hnew : s.objects.length ≤ (s.after (o :: ops)).version ((s.after (o :: ops)).get key) :=
        after_newer (s := s.step o) hvalid hrest (Nat.le_of_eq ((step_version h hr).2 he).symm)
      have hlt := h.version_lt (h.get_lt key)
      exact iff_of_false (fun hsame => by omega) fun hall => hall.1 he
    · rw [← (step_version h hr).1 he]
      exact (version_after_iff hvalid hrest).trans (and_iff_right he).symm

/-! ### Versions and updates -/

/-- Two objects with updates alone between them that do not edit. -/
def SameEdit (made : List (ℕ × ℕ)) : ℕ → ℕ → Prop := Relation.EqvGen fun a b => (a, b) ∈ made

theorem SameEdit.mono {made more : List (ℕ × ℕ)} {a b : ℕ} (h : SameEdit made a b) :
    SameEdit (made ++ more) a b :=
  Relation.EqvGen.mono (fun _ _ hab => List.mem_append_left _ hab) _ _ h

/-- The versions tell which objects have no edit between them. -/
structure Versioned (s : DraftStore ε) (made : List (ℕ × ℕ)) : Prop where
  valid : s.Valid
  same : ∀ p ∈ made, s.version p.1 = s.version p.2
  bound : ∀ p ∈ made, p.1 < s.objects.length ∧ p.2 < s.objects.length
  root : ∀ d < s.objects.length, SameEdit made d (s.version d)

section

variable {made : List (ℕ × ℕ)}

omit [DecidableEq ε] in
theorem Versioned.sameEdit_iff (h : s.Versioned made) {a b : ℕ} (ha : a < s.objects.length)
    (hb : b < s.objects.length) : s.version a = s.version b ↔ SameEdit made a b := by
  constructor
  · intro hv
    have hroot := h.root a ha
    rw [hv] at hroot
    exact .trans _ _ _ hroot (.symm _ _ (h.root b hb))
  · intro hs
    clear ha hb
    induction hs with
    | rel a b hab => exact h.same _ hab
    | refl a => rfl
    | symm a b _ ih => exact ih.symm
    | trans a b c _ _ ih₁ ih₂ => exact ih₁.trans ih₂

omit [DecidableEq ε] in
/-- Objects and versions that are left as they are. -/
theorem Versioned.of_frame (h : s.Versioned made) {t : DraftStore ε} (ht : t.Valid)
    (ho : t.objects = s.objects) (hv : t.versions = s.versions) : t.Versioned made := by
  have hversion : t.version = s.version := by
    funext d
    rw [version, hv, version]
  exact ⟨ht, hversion ▸ h.same, ho ▸ h.bound, hversion ▸ ho ▸ h.root⟩

omit [DecidableEq ε] in
/-- One more object, of the version that it was made from or of its own. -/
theorem Versioned.grow (h : s.Versioned made) {t : DraftStore ε} (ht : t.Valid)
    (hlength : t.objects.length = s.objects.length + 1)
    (hold : ∀ d < s.objects.length, t.version d = s.version d) {u : Option ℕ}
    (hfrom : ∀ d ∈ u, d < s.objects.length)
    (hnew : t.version s.objects.length = u.elim s.objects.length s.version) :
    t.Versioned (made ++ (u.map (·, s.objects.length)).toList) := by
  refine ⟨ht, fun p hp => ?_, fun p hp => ?_, fun d hd => ?_⟩
  · rcases List.mem_append.1 hp with hp | hp
    · rw [hold _ (h.bound p hp).1, hold _ (h.bound p hp).2, h.same p hp]
    · cases u with
      | none => simp at hp
      | some d =>
        obtain rfl : p = (d, s.objects.length) := by simpa using hp
        rw [hold d (hfrom d rfl), hnew, Option.elim_some]
  · rw [hlength]
    rcases List.mem_append.1 hp with hp | hp
    · exact ⟨Nat.lt_succ_of_lt (h.bound p hp).1, Nat.lt_succ_of_lt (h.bound p hp).2⟩
    · cases u with
      | none => simp at hp
      | some d =>
        obtain rfl : p = (d, s.objects.length) := by simpa using hp
        exact ⟨Nat.lt_succ_of_lt (hfrom d rfl), Nat.lt_succ_self _⟩
  · rcases Nat.lt_succ_iff_lt_or_eq.1 (hlength ▸ hd) with hd | rfl
    · rw [hold d hd]
      exact (h.root d hd).mono
    · rw [hnew]
      cases u with
      | none => exact .refl _
      | some d =>
        have hmade : SameEdit (made ++ ((some d).map (·, s.objects.length)).toList) d s.objects.length :=
          .rel _ _ (by simp)
        exact .trans _ _ _ (.symm _ _ hmade) (h.root d (hfrom d rfl)).mono

theorem Versioned.step (h : s.Versioned made) (o : DraftOp ε) :
    (s.step o).Versioned (made ++ (s.retouched o).toList) := by
  obtain ⟨hvalid, -, hold⟩ := step_objects h.valid o
  cases o with
  | update key patch =>
    have hlength : (s.step (.update key patch)).objects.length = s.objects.length + 1 := by
      simp [DraftStore.step, update]
    by_cases he : (s.draft (s.get key)).Edited ((s.draft (s.get key)).patched patch)
    · have hnew : (s.step (.update key patch)).version s.objects.length = s.objects.length := by
        simp [DraftStore.step, update, version, Assoc.lookup_put, Draft.sameContent_iff, he]
      simpa [retouched, he] using h.grow hvalid hlength hold (u := none) (by simp) hnew
    · have hnew : (s.step (.update key patch)).version s.objects.length = s.version (s.get key) := by
        simp [DraftStore.step, update, version, Assoc.lookup_put, Draft.sameContent_iff, he]
      have hget : ∀ d ∈ some (s.get key), d < s.objects.length := by
        simpa using h.valid.get_lt key
      simpa [retouched, he] using h.grow hvalid hlength hold hget hnew
  | adopt key draft =>
    have hframe : (s.step (.adopt key draft)).objects = s.objects ∧
        (s.step (.adopt key draft)).versions = s.versions := by
      simp only [DraftStore.step, adopt]
      split <;> first | split | skip
      all_goals exact ⟨rfl, rfl⟩
    simpa [retouched] using h.of_frame hvalid hframe.1 hframe.2
  | clear key submitted =>
    have hframe : (s.step (.clear key submitted)).objects = s.objects ∧
        (s.step (.clear key submitted)).versions = s.versions := by
      simp only [DraftStore.step, clear]
      split <;> first | split | skip
      all_goals exact ⟨rfl, rfl⟩
    simpa [retouched] using h.of_frame hvalid hframe.1 hframe.2
  | object draft =>
    have hnew : (s.step (.object draft)).version s.objects.length = s.objects.length := by
      have hnone : s.versions.lookup s.objects.length = none :=
        Assoc.lookup_eq_none.2 fun p hp => Nat.ne_of_lt (h.valid.versions p hp).1
      simp [DraftStore.step, version, hnone]
    have hlength : (s.step (.object draft)).objects.length = s.objects.length + 1 := by
      simp [DraftStore.step]
    simpa [retouched] using h.grow hvalid hlength hold (u := none) (by simp) hnew

end

omit [DecidableEq ε] in
theorem start_versioned : ({} : DraftStore ε).Versioned [] where
  valid := ⟨by simp, by simp, by simp⟩
  same := by simp
  bound := by simp
  root d hd := .refl _

theorem after_versioned (ops : List (DraftOp ε)) :
    (({} : DraftStore ε).after ops).Versioned (Runs.emitted step retouched {} ops) := by
  refine Runs.run_induction (s := {}) (P := fun ops (t : DraftStore ε) =>
    t.Versioned (Runs.emitted step retouched {} ops)) start_versioned (fun ops o h => ?_) ops
  rw [Runs.emitted_concat]
  exact h.step o

/-- Clearing a key takes its draft out exactly when the draft is current. -/
theorem clear_removes (hd : submitted < s.objects.length) :
    (s.has key = true ∧ (s.step (.clear key submitted)).has key = false) ↔
      s.has key = true ∧ s.isCurrent key submitted = true := by
  refine and_congr_right fun hhas => ?_
  simp only [step, hd, if_true, clear]
  split
  · rename_i hcurrent
    simp [has, Assoc.lookup_drop, hcurrent]
  · rename_i hcurrent
    simp [hhas, hcurrent]

/-- An operation leaves what other keys have. -/
theorem step_other (h : o.key ≠ some key) :
    (s.step o).drafts.lookup key = s.drafts.lookup key := by
  refine step_lookup ?_ fun patch ho => h (by rw [ho]; rfl)
  cases o with
  | update k patch => rfl
  | object draft => rfl
  | _ =>
    have hk : ¬_ = key := fun hk => h (congrArg some hk)
    simp [replaces, hk]

/-- Drafts are cleared only when unchanged, over every run. -/
theorem drafts_cleared (ops : List (DraftOp ε)) (key : String) :
    let s := ({} : DraftStore ε).after ops
    (∀ submitted < s.objects.length,
      (s.has key = true ∧ (s.step (.clear key submitted)).has key = false) ↔
        s.has key = true ∧
          SameEdit (Runs.emitted step retouched {} ops) (s.get key) submitted) ∧
    (∀ more, Runs.Throughout step (fun t o => t.replaces key o = false) s more →
      let t := s.after more
      (t.has key = true ∧ (t.step (.clear key (s.get key))).has key = false) ↔
        t.has key = true ∧ Runs.Throughout step (fun t o => ¬t.Edits key o) s more) ∧
    ∀ o : DraftOp ε, o.key ≠ some key → (s.step o).drafts.lookup key = s.drafts.lookup key := by
  intro s
  have hs := after_versioned ops
  refine ⟨fun submitted hd => ?_, fun more hmore => ?_, fun o ho => step_other ho⟩
  · rw [clear_removes hd, isCurrent, decide_eq_true_eq, hs.sameEdit_iff (hs.valid.get_lt key) hd]
  · have hlt := Nat.lt_of_lt_of_le (hs.valid.get_lt key) (after_objects hs.valid more).2.1
    refine (clear_removes hlt).trans (and_congr_right fun _ => ?_)
    rw [isCurrent, decide_eq_true_eq, (after_objects hs.valid more).2.2 _ (hs.valid.get_lt key)]
    exact version_after_iff hs.valid hmore

/-- A message is written and read for sending; it is put in again, and its references get a scope. -/
theorem drafts_cleared_sent :
    let s := ({} : DraftStore ℕ).after [.update "task" { text := some "sent" }]
    let t := s.after [.update "task" { text := some "sent" },
      .update "task" { references := some ⟨"local", []⟩ }]
    t.has "task" = true ∧ (t.step (.clear "task" (s.get "task"))).has "task" = false := by
  have h := (drafts_cleared (ε := ℕ) [.update "task" { text := some "sent" }] "task").2.1
    [.update "task" { text := some "sent" }, .update "task" { references := some ⟨"local", []⟩ }]
    (by decide)
  exact h.2 ⟨by decide, by decide⟩

end DraftStore

/-- An update changes a draft, where a scope counts only when both are set. -/
def Draft.Changed (a b : Draft ε) : Prop :=
  a.text ≠ b.text ∨ a.skillCreator ≠ b.skillCreator ∨
    a.references.entries ≠ b.references.entries ∨
    a.references.scope ≠ "" ∧ b.references.scope ≠ "" ∧ a.references.scope ≠ b.references.scope

/-- The scope of a reference is set after the draft was read. Nothing else changes, and the draft
stays. -/
theorem scope_of_entries_kept :
    let s := ({} : DraftStore ℕ).after
      [.update "task" { text := some "sent", references := some ⟨"", [0]⟩ }]
    let t := s.step (.update "task" { references := some ⟨"local", [0]⟩ })
    ¬(s.draft (s.get "task")).Changed (t.draft (t.get "task")) ∧
      (t.step (.clear "task" (s.get "task"))).has "task" = true := by
  refine ⟨?_, by decide⟩
  unfold Draft.Changed
  decide

end LatteWork
