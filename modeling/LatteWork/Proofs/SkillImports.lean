import LatteWork.Lib.Fields
import LatteWork.Server.Skills

/-!
# Importing a skill

What an import accepts fits into the limits of the copy that installs it, is written into its
stage only, as it was uploaded, and an import that fails leaves the installed skills alone.
-/

namespace LatteWork

namespace Skills

open Prog PathTree

variable {os : Os} {w : World} {path : Path} {node : Node}

section Calls

variable {Q : Unit → World → Prop} {E : Fault → World → Prop}

theorem ask_wp {e : Fault} (hQ : ∀ n, Q () { w with calls := n })
    (hE : ∀ n, E e { w with calls := n }) : wp (ask os e) Q E w := by
  simp only [ask, wp_bind, wp_current, wp_update, wp_bailIf]
  exact ⟨fun _ => hE _, fun _ => hQ _⟩

theorem place_wp (hE : ∀ n, E .io { w with calls := n })
    (hQ : ∀ n files, w.files.insert path node = some files →
      Q () { w with calls := n, files := files }) : wp (place os path node) Q E w := by
  unfold place
  refine wp_bind.2 (ask_wp (fun n => ?_) hE)
  simp only [wp_bind, wp_current, wp_orError, wp_update]
  exact ⟨hQ n, fun _ => hE n⟩

theorem readDir_wp {Q : List String → World → Prop} (hE : ∀ n, E .io { w with calls := n })
    (hQ : ∀ n names, w.files.isFolder path = true → names.Nodup →
      (∀ name, name ∈ names ↔ (w.files.node (path ++ [name])).isSome) →
      Q names { w with calls := n }) : wp (readDir os path) Q E w := by
  unfold readDir
  refine wp_bind.2 (ask_wp (fun n => ?_) hE)
  simp only [wp_bind, wp_current, wp_bailIf, wp_pure]
  refine ⟨fun _ => hE n, fun hfolder => hQ n _ (by simpa using hfolder) ?_ fun name => ?_⟩
  · exact (os.order_perm _ _).nodup_iff.2 (w.files.names_nodup path)
  · rw [(os.order_perm _ _).mem_iff, mem_names]

end Calls

/-! ## What the system's calls keep -/

section Keeps

variable {P : Files → Prop}

/-- A property of what is on the disk. -/
def OnDisk (P : Files → Prop) (w : World) : Prop := P w.files

theorem keeps_ask (e : Fault) : Keeps (OnDisk P) (ask os e) := fun _ h =>
  ask_wp (fun _ => h) fun _ => h

theorem keeps_place (h : ∀ f f', P f → f.insert path node = some f' → P f') :
    Keeps (OnDisk P) (place os path node) := fun _ hw =>
  place_wp (fun _ => hw) fun _ _ hf => h _ _ hw hf

theorem keeps_createNew {bytes : List UInt8} {mode : ℕ}
    (h : ∀ f f', P f → f.insert path (.file bytes (regularMode mode)) = some f' → P f') :
    Keeps (OnDisk P) (createNew os path bytes mode) :=
  Keeps.bind (keeps_place h) fun _ => keeps_ask _

theorem keeps_createDirAll (h : ∀ p ∈ path.inits, ∀ f f', P f → f.isFolder p = false →
    f.insert p (.dir true) = some f' → P f') : Keeps (OnDisk P) (createDirAll os path) := by
  refine Keeps.forEach fun p hp w hw => ?_
  refine wp_bind.2 (wp_current.2 ?_)
  by_cases hfolder : w.files.isFolder p = false
  · rw [when, if_pos hfolder]
    exact place_wp (fun _ => hw) fun _ _ hf => h p hp _ _ hw hfolder hf
  · rw [when, if_neg hfolder]
    exact hw

theorem keeps_readDir : Keeps (OnDisk P) (readDir os path) := fun _ hw =>
  readDir_wp (fun _ => hw) fun _ _ _ _ _ => hw

theorem keeps_removeDirAll (h : ∀ f, P f → P (f.remove path)) :
    Keeps (OnDisk P) (removeDirAll os path) :=
  Keeps.bind (keeps_ask _) fun _ => Keeps.update fun _ hw => h _ hw

theorem keeps_discard (h : ∀ f, P f → P (f.remove path)) :
    Keeps (OnDisk P) (discard os path) :=
  Keeps.bind (Keeps.attempt (keeps_removeDirAll h)) fun _ => Keeps.pure _

theorem keeps_recover {parent : Path} {front : String}
    (h : ∀ name, front.toList <+: name.toList → ∀ f, P f → P (f.remove (parent ++ [name]))) :
    ∀ (names : List String) (n : ℕ), Keeps (OnDisk P) (recover os parent front names n)
  | [], _ => Keeps.pure _
  | name :: rest, n => by
    refine Keeps.bind (keeps_ask _) fun _ => Keeps.bind Keeps.current fun w => ?_
    by_cases hstage : stageName front name = true ∧
      w.files.isFolder (parent ++ [name]) = true ∧ marked w.files (parent ++ [name]) = true ∧
        os.locked w.calls (parent ++ [name]) = false
    · rw [if_pos hstage]
      have hfront : front.toList <+: name.toList := by
        have hname := hstage.1
        simp only [stageName, Bool.and_eq_true, decide_eq_true_eq] at hname
        exact hname.1.1
      refine Keeps.bind (keeps_removeDirAll (h name hfront)) fun _ => ?_
      exact Keeps.ite (Keeps.pure _) (keeps_recover h rest _)
    · rw [if_neg hstage]
      exact keeps_recover h rest _

/-- A new stage is a new directory with a name of its own. -/
theorem newStaging_gives {parent : Path} {front : String}
    (hremove : ∀ name, front.toList <+: name.toList → ∀ f, P f → P (f.remove (parent ++ [name])))
    (hinsert : ∀ name, front.toList <+: name.toList → ∀ p v f f', parent ++ [name] <+: p → P f →
      f.insert p v = some f' → P f') :
    Gives (OnDisk P) (newStaging os parent front) fun staging =>
      ∃ suffix, staging = parent ++ [front ++ suffix] := by
  have hname : ∀ suffix, front.toList <+: (front ++ suffix).toList := by
    intro suffix
    rw [String.toList_append]
    exact List.prefix_append _ _
  unfold newStaging
  refine Gives.past (keeps_ask _) fun _ => Gives.past keeps_readDir fun names => ?_
  refine Gives.past (keeps_recover hremove _ _) fun _ => Gives.past (keeps_ask _) fun _ => ?_
  refine Gives.look fun w => ?_
  dsimp only
  refine Gives.past (keeps_place (hinsert _ (hname _) _ _ · · List.prefix_rfl)) fun _ => ?_
  refine Gives.past (Keeps.rescue (keeps_createNew ?_) fun e => ?_) fun _ => ?_
  · exact (hinsert _ (hname _) _ _ · · (List.prefix_append _ _))
  · exact Keeps.bind (keeps_discard (hremove _ (hname _))) fun _ => Keeps.fail e
  · exact Gives.pure ⟨_, rfl⟩

theorem keeps_inStaging {staging : Path} {m : Op Unit} (hm : Keeps (OnDisk P) m)
    (h : ∀ f, P f → P (f.remove staging)) : Keeps (OnDisk P) (inStaging os staging m) :=
  Keeps.bind (Keeps.attempt hm) fun _ => Keeps.bind (keeps_discard h) fun _ => Keeps.lift _

theorem keeps_safeFolder (h : ∀ p ∈ path.inits, ∀ f f', P f →
    f.insert p (.dir true) = some f' → P f') : Keeps (OnDisk P) (safeFolder os path) := by
  refine Keeps.forEach fun p hp => Keeps.bind (keeps_ask _) fun _ => Keeps.bind Keeps.current ?_
  intro w
  split
  · exact Keeps.pure _
  · exact Keeps.fail _
  · exact keeps_place (h p hp)

theorem keeps_inspect {source : Path} : Keeps (OnDisk P) (inspect os source) := by
  refine Keeps.bind (keeps_ask _) fun _ => Keeps.bind Keeps.current fun w => ?_
  split
  · exact Keeps.bailIf _ _
  · exact Keeps.fail _
  · exact Keeps.fail _

theorem keeps_requireAbsent : Keeps (OnDisk P) (requireAbsent os path) :=
  Keeps.bind (keeps_ask _) fun _ => Keeps.bind Keeps.current fun _ => Keeps.bailIf _ _

/-- A copy writes into its target. -/
theorem keeps_copyTree : ∀ (left : ℕ) (source target : Path),
    (∀ p v f f', target <+: p → P f → f.insert p v = some f' → P f') →
    Keeps (OnDisk P) (copyTree os left source target)
  | 0, _, _, _ => Keeps.bind (keeps_ask _) fun _ => Keeps.fail _
  | left + 1, source, target, h => by
    unfold copyTree
    refine Keeps.bind (keeps_ask _) fun _ => ?_
    refine Keeps.bind (keeps_place (h target _ · · List.prefix_rfl)) fun _ => ?_
    refine Keeps.bind keeps_readDir fun names => ?_
    refine Keeps.bind (Keeps.forEach fun name _ => ?_) fun _ => keeps_ask _
    have hchild : target <+: target ++ [name] := List.prefix_append _ _
    refine Keeps.bind (keeps_ask _) fun _ => Keeps.bind (Keeps.update fun _ hw => hw) fun _ => ?_
    refine Keeps.bind Keeps.current fun w => Keeps.bind (Keeps.bailIf _ _) fun _ => ?_
    refine Keeps.bind (keeps_ask _) fun _ => ?_
    split
    · exact keeps_copyTree left _ _ fun p v f f' hp => h p v f f' (hchild.trans hp)
    · refine Keeps.bind (Keeps.update fun _ hw => hw) fun _ => Keeps.bind Keeps.current fun w => ?_
      exact Keeps.bind (Keeps.bailIf _ _) fun _ => keeps_createNew (h _ _ · · hchild)
    · exact Keeps.fail _
    · exact Keeps.fail _

end Keeps

/-! ## What a copy counts -/

section Copies

def size : Node → ℕ
  | .file bytes _ => bytes.length
  | _ => 0

/-- What is below a directory is within the limits of a copy. -/
structure Fits (source : Path) (f : Files) : Prop where
  count : f.weigh (fun _ => 1) source ≤ 512
  size : f.weigh size source ≤ 16 * 1024 * 1024
  depth : ∀ r, f.isFolder (source ++ r) = true → r.length ≤ 8

variable {source source₀ target₀ p : Path} {f f' f₀ : Files}

theorem isFolder_congr (h : f'.node p = f.node p) : f'.isFolder p = f.isFolder p := by
  unfold isFolder
  rw [h]

theorem Fits.insert (h : Fits source f) (hp : ¬Below source p) (hf : f.insert p node = some f') :
    Fits source f' := by
  refine ⟨?_, ?_, fun r hr => ?_⟩
  · rw [weigh_insert hf, if_neg hp]
    exact h.count
  · rw [weigh_insert hf, if_neg hp]
    exact h.size
  · by_cases hpath : source ++ r = p
    · subst hpath
      by_contra hlong
      refine hp ⟨List.prefix_append _ _, fun heq => hlong ?_⟩
      rw [List.self_eq_append_right.1 heq]
      exact Nat.zero_le _
    · have hnode : f'.node (source ++ r) = f.node (source ++ r) := by
        rw [node_insert hf, if_neg hpath]
      exact h.depth r (isFolder_congr hnode ▸ hr)

theorem Fits.remove (h : Fits source f) (p : Path) : Fits source (f.remove p) := by
  refine ⟨(weigh_remove_le p).trans h.count, (weigh_remove_le p).trans h.size, fun r hr => ?_⟩
  refine h.depth r ?_
  unfold isFolder at hr ⊢
  rw [node_remove] at hr
  split_ifs at hr
  · cases hr
  · exact hr

/-- A copy of what is within the limits does not fail for them: its budget is what is copied. -/
theorem copyTree_fits (hdepth : ∀ r, f₀.isFolder (source₀ ++ r) = true → r.length ≤ 8)
    (hapart : ∀ s, source₀ <+: s → ¬target₀ <+: s) :
    ∀ (left : ℕ) (source target : Path) (w : World), source₀ <+: source → target₀ <+: target →
      source.length + left = source₀.length + 9 → source.length ≤ source₀.length + 8 →
      OnDisk (fun f => ∀ s, ¬target₀ <+: s → f.node s = f₀.node s) w →
      w.copied.1 + f₀.weigh (fun _ => 1) source ≤ 512 →
      w.copied.2 + f₀.weigh size source ≤ 16 * 1024 * 1024 →
      wp (copyTree os left source target)
        (fun _ w' => OnDisk (fun f => ∀ s, ¬target₀ <+: s → f.node s = f₀.node s) w' ∧
          w'.copied = (w.copied.1 + f₀.weigh (fun _ => 1) source,
            w.copied.2 + f₀.weigh size source))
        (fun e _ => e.copyLimit = false) w
  | 0, source, target, w, _, _, hleft, hshort, _, _, _ => by omega
  | left + 1, source, target, w, hsource, htarget, hleft, hshort, hsame, hcount, hsize => by
    have hinsert : ∀ (p : Path) (v : Node) (f f' : Files), target₀ <+: p →
        (∀ s, ¬target₀ <+: s → f.node s = f₀.node s) → f.insert p v = some f' →
        ∀ s, ¬target₀ <+: s → f'.node s = f₀.node s := by
      intro p v f f' hp hf hins s hs
      rw [node_insert hins, if_neg, hf s hs]
      rintro rfl
      exact hs hp
    unfold copyTree
    refine wp_bind.2 (ask_wp (fun _ => ?_) fun _ => rfl)
    refine wp_bind.2 (place_wp (fun _ => rfl) fun n files hplaced => ?_)
    have hsame₁ := hinsert target _ _ _ htarget hsame hplaced
    refine wp_bind.2 (readDir_wp (fun _ => rfl) fun n names hfolder hnodup hnames => ?_)
    have hchildren : ∀ name, name ∈ names ↔ (f₀.node (source ++ [name])).isSome := by
      intro name
      rw [hnames, ← hsame₁ _ (hapart _ (hsource.trans (List.prefix_append _ _)))]
    have hone := @weigh_children _ _ _ _ f₀ source (fun _ => 1) names hnodup hchildren
    have hbytes := @weigh_children _ _ _ _ f₀ source size names hnodup hchildren
    rw [hone] at hcount ⊢
    rw [hbytes] at hsize ⊢
    refine wp_bind.2 (wp_mono (@wp_forEach _ _ _ _ _ (fun rest u =>
      OnDisk (fun f => ∀ s, ¬target₀ <+: s → f.node s = f₀.node s) u ∧
      (∀ name ∈ rest, name ∈ names) ∧
      u.copied.1 + (rest.map fun name => (f₀.node (source ++ [name])).elim 0 (fun _ => 1) +
        f₀.weigh (fun _ => 1) (source ++ [name])).sum = w.copied.1 +
          (names.map fun name => (f₀.node (source ++ [name])).elim 0 (fun _ => 1) +
            f₀.weigh (fun _ => 1) (source ++ [name])).sum ∧
      u.copied.2 + (rest.map fun name => (f₀.node (source ++ [name])).elim 0 size +
        f₀.weigh size (source ++ [name])).sum = w.copied.2 +
          (names.map fun name => (f₀.node (source ++ [name])).elim 0 size +
            f₀.weigh size (source ++ [name])).sum) ?_ names _
      ⟨hsame₁, fun _ h => h, rfl, rfl⟩) ?_ fun _ _ h => h)
    · rintro name rest u ⟨hu, hmem, hcounted, hsized⟩
      obtain ⟨v, hv⟩ := Option.isSome_iff_exists.1 ((hchildren name).1 (hmem name (by simp)))
      have hrest : ∀ other ∈ rest, other ∈ names := fun other h => hmem other (by simp [h])
      have hchild : source₀ <+: source ++ [name] := hsource.trans (List.prefix_append _ _)
      have hnode : u.files.node (source ++ [name]) = some v := (hu _ (hapart _ hchild)).trans hv
      simp only [List.map_cons, List.sum_cons, hv, Option.elim_some] at hcounted hsized
      refine wp_bind.2 (ask_wp (fun _ => ?_) fun _ => rfl)
      simp only [wp_bind, wp_update, wp_current, wp_bailIf]
      refine ⟨fun hlarge => absurd hlarge (by omega), fun _ => ask_wp (fun _ => ?_) fun _ => rfl⟩
      rw [hnode]
      have hfolder₀ : f₀.isFolder (source ++ [name]) = v.isDir := by
        unfold isFolder
        rw [hv]
        rfl
      cases v with
      | file bytes mode =>
        rw [weigh_of_not_folder hfolder₀] at hcounted hsized
        have hbytes : size (.file bytes mode) = bytes.length := rfl
        have hmin : min (u.copied.2 + bytes.length) (2 ^ 64 - 1) = u.copied.2 + bytes.length := by
          omega
        simp only [wp_bind, wp_update, wp_current, wp_bailIf, hmin]
        refine ⟨fun hlarge => absurd hlarge (by omega), fun _ => ?_⟩
        refine wp_bind.2 (place_wp (fun _ => rfl) fun _ files hfiles => ?_)
        refine ask_wp (fun _ => ⟨?_, hrest, ?_, ?_⟩) fun _ => rfl
        · exact hinsert _ _ _ _ (htarget.trans (List.prefix_append _ _)) hu hfiles
        · exact Eq.trans (by dsimp only; omega) hcounted
        · exact Eq.trans (by dsimp only; omega) hsized
      | dir writable =>
        have hshorter : (source ++ [name]).length ≤ source₀.length + 8 := by
          obtain ⟨r, rfl⟩ := hsource
          have hr := hdepth (r ++ [name]) (by rw [← List.append_assoc, hfolder₀]; rfl)
          simp only [List.length_append] at hr ⊢
          omega
        have hlength : (source ++ [name]).length = source.length + 1 := by simp
        have hdir : size (.dir writable) = 0 := rfl
        refine wp_mono (copyTree_fits hdepth hapart left (source ++ [name]) (target ++ [name]) _
          hchild (htarget.trans (List.prefix_append _ _)) (by omega) hshorter hu ?_ ?_) ?_
          fun _ _ h => h
        · dsimp only
          omega
        · dsimp only
          omega
        · rintro _ u' ⟨hu', hcopied⟩
          refine ⟨hu', hrest, ?_, ?_⟩
          · rw [hcopied]
            dsimp only
            omega
          · rw [hcopied]
            dsimp only
            omega
      | symlink => rfl
      | other => rfl
    · rintro _ u ⟨hu, -, hcounted, hsized⟩
      refine ask_wp (fun _ => ⟨hu, ?_⟩) fun _ => rfl
      exact Prod.ext (by simpa using hcounted) (by simpa using hsized)

end Copies

/-! ## How an import fails -/

section Failures

/-- An error that is no limit of a copy. -/
def Other (e : Fault) : Prop := e.copyLimit = false

theorem fails_ask {e : Fault} (h : Other e) : Fails Other (ask os e) := fun _ =>
  ask_wp (fun _ => trivial) fun _ => h

theorem fails_check : Fails Other (check os) := fails_ask rfl

theorem fails_place : Fails Other (place os path node) := fun _ =>
  place_wp (fun _ => rfl) fun _ _ _ => trivial

theorem fails_readDir : Fails Other (readDir os path) := fun _ =>
  readDir_wp (fun _ => rfl) fun _ _ _ _ _ => trivial

theorem fails_createNew {bytes : List UInt8} {mode : ℕ} :
    Fails Other (createNew os path bytes mode) :=
  Fails.bind fails_place fun _ => fails_ask rfl

theorem fails_removeDirAll : Fails Other (removeDirAll os path) :=
  Fails.bind (fails_ask rfl) fun _ => Fails.update _

theorem fails_createDirAll : Fails Other (createDirAll os path) :=
  Fails.forEach (fun _ => Fails.bind Fails.current fun _ => Fails.when fails_place) _

theorem fails_discard : Fails Other (discard os path) :=
  Fails.bind (Fails.attempt _) fun _ => Fails.pure _

theorem fails_recover {parent : Path} {front : String} : ∀ (names : List String) (n : ℕ),
    Fails Other (recover os parent front names n)
  | [], _ => Fails.pure _
  | name :: rest, n => by
    refine Fails.bind (fails_ask rfl) fun _ => Fails.bind Fails.current fun w => ?_
    refine Fails.ite (Fails.bind fails_removeDirAll fun _ => ?_) (fails_recover rest n)
    exact Fails.ite (Fails.pure _) (fails_recover rest _)

theorem fails_newStaging {parent : Path} {front : String} :
    Fails Other (newStaging os parent front) := by
  unfold newStaging
  refine Fails.bind (fails_ask rfl) fun _ => Fails.bind fails_readDir fun _ => ?_
  refine Fails.bind (fails_recover _ _) fun _ => Fails.bind (fails_ask rfl) fun _ => ?_
  refine Fails.bind Fails.current fun _ => Fails.bind fails_place fun _ => ?_
  refine Fails.bind (Fails.rescue fails_createNew fun e he => ?_) fun _ => Fails.pure _
  exact Fails.bind fails_discard fun _ => Fails.fail he

theorem fails_safeFolder : Fails Other (safeFolder os path) := by
  refine Fails.forEach (fun p => ?_) _
  refine Fails.bind (fails_ask rfl) fun _ => Fails.bind Fails.current fun w => ?_
  split
  · exact Fails.pure _
  · exact Fails.fail rfl
  · exact fails_place

theorem fails_inspect {source : Path} : Fails Other (inspect os source) := by
  refine Fails.bind (fails_ask rfl) fun _ => Fails.bind Fails.current fun w => ?_
  split
  · exact Fails.bailIf rfl
  · exact Fails.fail rfl
  · exact Fails.fail rfl

theorem fails_requireAbsent : Fails Other (requireAbsent os path) :=
  Fails.bind (fails_ask rfl) fun _ => Fails.bind Fails.current fun _ => Fails.bailIf rfl

theorem fails_rename {source target : Path} : Fails Other (rename os source target) :=
  Fails.bind (fails_ask rfl) fun _ => Fails.bind Fails.current fun _ =>
    Fails.bind (Fails.orError (show Other .io from rfl) _) fun _ => Fails.update _

theorem discard_wp {Q : Unit → World → Prop} {E : Fault → World → Prop}
    (hQ : ∀ t, Q () t) : wp (discard os path) Q E w := by
  unfold discard
  rw [wp_bind, wp_attempt]
  unfold wp
  split <;> exact hQ _

theorem inStaging_fails {staging : Path} {m : Op Unit} {F : Fault → Prop}
    (h : wp m (fun _ _ => True) (fun e _ => F e) w) :
    wp (inStaging os staging m) (fun _ _ => True) (fun e _ => F e) w := by
  refine wp_bind.2 (wp_attempt.2 (wp_mono h (fun _ t _ => ?_) fun e t he => ?_))
  · exact wp_bind.2 (discard_wp fun _ => trivial)
  · exact wp_bind.2 (discard_wp fun _ => he)

end Failures

section Installs

variable {k : Skills} {source p : Path}

/-- What is in the server's directory is not where the skills are. -/
theorem not_agents (h : k.directory <+: p) : ¬k.agents <+: p := by
  intro hagents
  rcases Nat.le_total k.directory.length k.agents.length with hle | hle
  · exact k.apart.1 (List.prefix_of_prefix_length_le h hagents hle)
  · exact k.apart.2 (List.prefix_of_prefix_length_le hagents h hle)

theorem not_directory (h : k.agents <+: p) : ¬k.directory <+: p := fun hd => not_agents hd h

/-- What is along the path of the skills is not in the server's directory. -/
theorem along_root (h : p <+: k.root) : ¬k.directory <+: p := by
  intro hd
  rcases Nat.le_total k.agents.length p.length with hle | hle
  · exact not_agents hd (List.prefix_of_prefix_length_le (List.prefix_append _ _) h hle)
  · exact k.apart.1 (hd.trans (List.prefix_of_prefix_length_le h (List.prefix_append _ _) hle))

/-- An installation of what is within the limits of a copy does not fail for them. -/
theorem install_limits (hsource : k.directory <+: source) (hw : OnDisk (Fits source) w) :
    wp (k.install os source) (fun _ _ => True) (fun e _ => Other e) w := by
  have hbelow : ∀ p, ¬k.directory <+: p → ¬Below source p := fun p hp hb =>
    hp (hsource.trans hb.1)
  unfold install
  refine Fails.past (fails_ask rfl) (keeps_ask _) hw fun _ w hw => ?_
  refine Fails.past (fails_ask rfl) (keeps_ask _) hw fun _ w hw => ?_
  refine Fails.past Fails.current Keeps.current hw fun _ w hw => ?_
  refine Fails.past (Fails.bailIf rfl) (Keeps.bailIf _ _) hw fun _ w hw => ?_
  refine Fails.past (Fails.orError (show Other .sourceName from rfl) _) (Keeps.orError _ _) hw fun slug w hw => ?_
  refine Fails.past fails_inspect keeps_inspect hw fun _ w hw => ?_
  refine Fails.past (fails_ask rfl) (keeps_ask _) hw fun _ w hw => ?_
  refine Fails.past Fails.current Keeps.current hw fun _ w hw => ?_
  refine Fails.past (Fails.bailIf rfl) (Keeps.bailIf _ _) hw fun _ w hw => ?_
  refine Fails.past fails_safeFolder (keeps_safeFolder fun p hp f f' hf hins => ?_) hw
    fun _ w hw => ?_
  · exact hf.insert (hbelow p (along_root ((List.mem_inits _ _).1 hp))) hins
  refine Fails.past (Fails.forEach (fun _ => fails_requireAbsent) _)
    (Keeps.forEach fun _ _ => keeps_requireAbsent) hw fun _ w hw => ?_
  refine wp_bind.2 (wp_mono (wp_and (newStaging_gives ?_ ?_ w hw) (fails_newStaging w)) ?_
    fun _ _ h => h.2)
  · exact fun _ _ f hf => hf.remove _
  · intro name _ p v f f' hp hf hins
    exact hf.insert (hbelow p (not_directory ((List.prefix_append _ _).trans hp))) hins
  rintro staging w ⟨⟨⟨suffix, rfl⟩, hw⟩, -⟩
  refine inStaging_fails ?_
  have hcount : 0 + w.files.weigh (fun _ => 1) source ≤ 512 := by
    rw [Nat.zero_add]
    exact hw.count
  have hsize : 0 + w.files.weigh size source ≤ 16 * 1024 * 1024 := by
    rw [Nat.zero_add]
    exact hw.size
  have hapart : ∀ s, source <+: s → ¬k.agents ++ [".latte-work-skill-import-" ++ suffix] ++ [slug] <+: s := by
    intro s hs htarget
    rw [List.append_assoc] at htarget
    exact not_agents (hsource.trans hs) ((List.prefix_append _ _).trans htarget)
  refine wp_bind.2 (wp_update.2 (wp_bind.2 (wp_mono (copyTree_fits hw.depth hapart 9 source _ _
    List.prefix_rfl List.prefix_rfl rfl (Nat.le_add_right _ _) (fun _ _ => rfl) hcount hsize) ?_
    fun _ _ h => h)))
  rintro - w -
  exact Fails.bind fails_check (fun _ => fails_rename) w

end Installs

/-! ## What a manifest names -/

section Manifests

variable {uploads source : Path} {item : SkillImportFile} {found found' : List String × List String}

/-- A file of a manifest that is accepted. -/
structure Valid (uploads : Path) (item : SkillImportFile) : Prop where
  parts : ∀ part ∈ pathParts item.path, badPart part = false
  few : (pathParts item.path).length ≤ 9
  completed : isCompleted uploads item.attachment = true

theorem exists_parts (path : String) :
    ∃ fields q, path.toList = Fields.join '/' fields ++ q ∧
      pathParts path = (fields ++ [q]).map String.ofList ∧ ∀ f ∈ fields ++ [q], '/' ∉ f := by
  obtain ⟨fields, q, htext, hfields, hq⟩ := Fields.exists_join '/' path.toList
  refine ⟨fields, q, htext, ?_, fun f hf => ?_⟩
  · rw [pathParts, htext, Fields.splitOn_join hq hfields]
  · rcases List.mem_append.1 hf with hf | hf
    · exact hfields f hf
    · obtain rfl := List.mem_singleton.1 hf
      exact hq

theorem pathParts_ne_nil (path : String) : pathParts path ≠ [] := by
  obtain ⟨fields, q, -, hparts, -⟩ := exists_parts path
  rw [hparts]
  simp

theorem pathParts_free {path part : String} (h : part ∈ pathParts path) : '/' ∉ part.toList := by
  obtain ⟨fields, q, -, hparts, hfree⟩ := exists_parts path
  rw [hparts] at h
  obtain ⟨f, hf, rfl⟩ := List.mem_map.1 h
  rw [String.toList_ofList]
  exact hfree f hf

theorem joinParts_pathParts (path : String) : joinParts (pathParts path) = path := by
  rw [joinParts, pathParts, List.map_map]
  have hid : String.toList ∘ String.ofList = id := funext fun _ => String.toList_ofList
  rw [hid, List.map_id, List.intercalate_splitOn, String.ofList_toList]

/-- Paths are told apart by their texts. -/
theorem joinParts_inj {r r' : List String} (hr : r ≠ []) (hr' : r' ≠ [])
    (hfree : ∀ part ∈ r, '/' ∉ part.toList) (hfree' : ∀ part ∈ r', '/' ∉ part.toList)
    (h : joinParts r = joinParts r') : r = r' := by
  have hsplit : ∀ l : List String, l ≠ [] → (∀ part ∈ l, '/' ∉ part.toList) →
      (joinParts l).toList.splitOn '/' = l.map String.toList := by
    intro l hl hf
    rw [joinParts, String.toList_ofList, List.splitOn_intercalate]
    · intro f hmem
      obtain ⟨part, hpart, rfl⟩ := List.mem_map.1 hmem
      exact hf part hpart
    · simpa using hl
  have hmap := (hsplit r hr hfree).symm.trans ((congrArg _ (congrArg _ h)).trans
    (hsplit r' hr' hfree'))
  exact List.map_injective_iff.2 (fun _ _ => String.toList_inj.1) hmap

theorem follow_parts : ∀ (parts : List String) (path : Path),
    (∀ part ∈ parts, badPart part = false) → parts.foldl follow path = path ++ parts
  | [], path, _ => (List.append_nil path).symm
  | part :: parts, path, h => by
    have hpart := h part List.mem_cons_self
    simp only [badPart, Bool.or_eq_false_iff, decide_eq_false_iff_not] at hpart
    have hfollow : follow path part = path ++ [part] := by
      rw [follow, if_neg, if_neg] <;> tauto
    rw [List.foldl_cons, hfollow, follow_parts parts _ fun p hp => h p (by simp [hp])]
    simp

/-- A path of a manifest leads into the directory that it is joined to. -/
theorem Valid.join (h : Valid uploads item) (source : Path) :
    joinPath source item.path = source ++ pathParts item.path := by
  have hrelative : item.path.toList.head? ≠ some '/' := by
    intro hslash
    obtain ⟨fields, q, htext, hparts, hfree⟩ := exists_parts item.path
    have hempty : badPart "" = true := by decide
    have hfirst : "" ∈ pathParts item.path := by
      rw [hparts]
      rcases fields with _ | ⟨f, fields⟩
      · rcases q with _ | ⟨c, q⟩
        · exact List.mem_cons_self
        · rw [htext] at hslash
          obtain rfl := Option.some.inj hslash
          exact absurd List.mem_cons_self (hfree ('/' :: q) (by simp))
      · rcases f with _ | ⟨c, f⟩
        · exact List.mem_cons_self
        · rw [htext, Fields.join_cons] at hslash
          obtain rfl := Option.some.inj hslash
          exact absurd List.mem_cons_self (hfree ('/' :: f) (by simp))
    exact absurd (h.parts "" hfirst) (by simp [hempty])
  rw [joinPath, if_neg hrelative, follow_parts _ _ h.parts]

/-- What the checks of a manifest have found of one of its files. -/
def Found (uploads : Path) (found : List String × List String) (item : SkillImportFile) : Prop :=
  Valid uploads item ∧ item.path ∈ found.1 ∧
    ∀ n, 0 < n → n < (pathParts item.path).length →
      joinParts ((pathParts item.path).take n) ∈ found.2

theorem Found.mono (h : Found uploads found item) (hnames : found.1 ⊆ found'.1)
    (hdirectories : found.2 ⊆ found'.2) : Found uploads found' item :=
  ⟨h.1, hnames h.2.1, fun n hn hlt => hdirectories (h.2.2 n hn hlt)⟩

theorem subset_insertAll (f : ℕ → String) : ∀ (ns : List ℕ) (l : List String),
    l ⊆ ns.foldl (fun l n => l.insert (f n)) l ∧
      ∀ n ∈ ns, f n ∈ ns.foldl (fun l n => l.insert (f n)) l
  | [], l => ⟨List.Subset.refl l, fun _ h => absurd h List.not_mem_nil⟩
  | n :: ns, l => by
    obtain ⟨hsub, hmem⟩ := subset_insertAll f ns (l.insert (f n))
    refine ⟨fun x hx => hsub (List.mem_insert_of_mem hx), fun m hm => ?_⟩
    rcases List.mem_cons.1 hm with rfl | hm
    · exact hsub List.mem_insert_self
    · exact hmem m hm

theorem checkFile_found (h : checkFile uploads found item = .ok found') :
    found.1 ⊆ found'.1 ∧ found.2 ⊆ found'.2 ∧ Found uploads found' item := by
  simp only [checkFile, Fallible.bind_eq_ok, Fallible.bailIf_eq_ok, Except.ok.injEq] at h
  obtain ⟨-, hpath, -, hcompleted, rfl⟩ := h
  simp only [not_or, not_lt, List.any_eq_true, not_exists, not_and, Bool.not_eq_true] at hpath
  obtain ⟨hsub, hmem⟩ := subset_insertAll (fun n => joinParts ((pathParts item.path).take n))
    (List.range' 1 ((pathParts item.path).length - 1)) found.2
  refine ⟨List.subset_cons_self _ _, hsub, ⟨hpath.2.2.1, hpath.2.1, ?_⟩, List.mem_cons_self, ?_⟩
  · simpa using hcompleted
  · intro n hn hlt
    refine hmem n (List.mem_range'_1.2 ?_)
    omega

theorem foldlM_found : ∀ {files : List SkillImportFile} {found found' : List String × List String},
    files.foldlM (checkFile uploads) found = .ok found' →
    found.1 ⊆ found'.1 ∧ found.2 ⊆ found'.2 ∧ ∀ item ∈ files, Found uploads found' item
  | [], _, _, h => by
    obtain rfl := Except.ok.inj h
    exact ⟨List.Subset.refl _, List.Subset.refl _, fun _ h => absurd h List.not_mem_nil⟩
  | item :: files, found, found', h => by
    rw [List.foldlM_cons, Fallible.bind_eq_ok] at h
    obtain ⟨mid, hitem, hrest⟩ := h
    obtain ⟨hnames, hdirectories, hfound⟩ := checkFile_found hitem
    obtain ⟨hnames', hdirectories', hfiles⟩ := foldlM_found hrest
    refine ⟨fun _ hx => hnames' (hnames hx), fun _ hx => hdirectories' (hdirectories hx), ?_⟩
    exact List.forall_mem_cons.2 ⟨hfound.mono hnames' hdirectories', hfiles⟩

/-- The files of a manifest that is accepted, and as many names and directories as a copy may
have. -/
theorem checkFiles_found {files : List SkillImportFile} (h : checkFiles uploads files = .ok ()) :
    ∃ found, found.1.length + found.2.length ≤ 512 ∧ ∀ item ∈ files, Found uploads found item := by
  simp only [checkFiles, Fallible.bind_eq_ok, Fallible.bailIf_eq_ok, Prod.exists] at h
  obtain ⟨names, directories, hfold, -, hfew, -⟩ := h
  refine ⟨(names, directories), ?_, (foldlM_found hfold).2.2⟩
  simp only [not_or, not_lt] at hfew
  exact hfew.1

end Manifests

/-! ## What is in a stage -/

section Stages

variable {source p : Path} {base f f' : Files} {all done rest : List SkillImportFile}
  {item : SkillImportFile} {total : ℕ} {uploads : Path}

/-- A directory has the files of the manifest so far, and the directories that lead to them, and
the rest of the disk is as it was. -/
structure Staged (source : Path) (base : Files) (all done : List SkillImportFile) (total : ℕ)
    (f : Files) : Prop where
  outside : ∀ p, ¬source <+: p → f.node p = base.node p
  folder : f.isFolder source = true
  placed : ∀ item ∈ done, ∃ bytes mode, base.node (absolute item.attachment) =
      some (.file bytes mode) ∧
    f.node (source ++ pathParts item.path) = some (.file bytes (regularMode 0o600))
  known : ∀ r v, r ≠ [] → f.node (source ++ r) = some v → ∃ item ∈ all,
    r <+: pathParts item.path ∧ (v.isDir = true → r ≠ pathParts item.path)
  weight : f.weigh size source = total
  bound : total ≤ 16 * 1024 * 1024

/-- A new node on the path of a file. -/
theorem Staged.insert {r : Path} (h : Staged source base all done total f) (hitem : item ∈ all)
    (hr : r ≠ []) (hpre : r <+: pathParts item.path)
    (hdir : node.isDir = true → r ≠ pathParts item.path)
    (hbound : total + size node ≤ 16 * 1024 * 1024)
    (hins : f.insert (source ++ r) node = some f') :
    Staged source base all done (total + size node) f' := by
  have hbelow : Below source (source ++ r) :=
    ⟨List.prefix_append _ _, fun heq => hr (List.self_eq_append_right.1 heq)⟩
  have hfree := (insert_eq_some hins).2.2.1
  refine ⟨fun p hp => ?_, ?_, fun other hother => ?_, fun r' v hr' hv => ?_, ?_, hbound⟩
  · rw [node_insert hins, if_neg, h.outside p hp]
    rintro rfl
    exact hp hbelow.1
  · have hsource : f'.node source = f.node source := by
      rw [node_insert hins, if_neg hbelow.2]
    rw [isFolder_congr hsource, h.folder]
  · obtain ⟨bytes, mode, hbase, hplaced⟩ := h.placed other hother
    refine ⟨bytes, mode, hbase, ?_⟩
    rw [node_insert hins, if_neg, hplaced]
    intro heq
    rw [heq, hfree] at hplaced
    cases hplaced
  · rw [node_insert hins] at hv
    split_ifs at hv with heq
    · obtain rfl := List.append_cancel_left heq
      obtain rfl := Option.some.inj hv
      exact ⟨item, hitem, hpre, hdir⟩
    · exact h.known r' v hr' hv
  · rw [weigh_insert hins, if_pos hbelow, h.weight]

/-- The directories on the path of a file. -/
theorem staged_createDirAll (hitem : item ∈ all) :
    Keeps (OnDisk (Staged source base all done total))
      (createDirAll os (source ++ (pathParts item.path).dropLast)) := by
  refine keeps_createDirAll fun p hp f f' hf hnew hins => ?_
  have hdirs := (List.mem_inits _ _).1 hp
  have hsource : source <+: p := by
    rcases List.prefix_or_prefix_of_prefix hdirs (List.prefix_append source _) with h | h
    · rw [isFolder_above hf.folder h] at hnew
      cases hnew
    · exact h
  obtain ⟨r, rfl⟩ := hsource
  have hr : r ≠ [] := by
    rintro rfl
    rw [List.append_nil, hf.folder] at hnew
    cases hnew
  have hpre : r <+: (pathParts item.path).dropLast := (List.prefix_append_right_inj _).1 hdirs
  have hshort : r ≠ pathParts item.path := by
    intro heq
    have hlen := hpre.length_le
    have hpos := List.length_pos_of_ne_nil hr
    rw [heq, List.length_dropLast] at hlen
    rw [heq] at hpos
    omega
  have hbound : total + size (.dir true) ≤ 16 * 1024 * 1024 := hf.bound
  exact hf.insert hitem hr (hpre.trans (List.dropLast_prefix _)) (fun _ => hshort) hbound hins

/-- One file is staged as it was uploaded. -/
theorem stageFile_wp (hitem : item ∈ all) (hvalid : Valid uploads item)
    (hattachment : ¬source <+: absolute item.attachment)
    (hw : OnDisk (Staged source base all done total) w) :
    wp (stageFile os source total item)
      (fun total' => OnDisk (Staged source base all (done ++ [item]) total'))
      (fun _ => OnDisk fun f => ∀ p, ¬source <+: p → f.node p = base.node p) w := by
  have hout : ∀ {done total w}, OnDisk (Staged source base all done total) w →
      OnDisk (fun f => ∀ p, ¬source <+: p → f.node p = base.node p) w := fun h => h.outside
  unfold stageFile
  refine wp_bind.2 (ask_wp (fun _ => ?_) fun _ => hout hw)
  refine wp_bind.2 (ask_wp (fun _ => ?_) fun _ => hout hw)
  refine wp_bind.2 (wp_current.2 ?_)
  have hread : w.files.node (absolute item.attachment) = base.node (absolute item.attachment) :=
    hw.outside _ hattachment
  dsimp only
  split
  · rename_i bytes mode hnode
    refine wp_bind.2 (wp_bailIf.2 ⟨fun _ => hout hw, fun hfits => ?_⟩)
    rw [hvalid.join]
    have hne := pathParts_ne_nil item.path
    have hlast : (source ++ pathParts item.path).dropLast =
        source ++ (pathParts item.path).dropLast := List.dropLast_append_of_ne_nil hne
    have hmin : min (total + bytes.length) (2 ^ 64 - 1) = total + bytes.length := by
      omega
    rw [hlast, hmin]
    refine wp_bind.2 (wp_rescue.2 (wp_mono (staged_createDirAll hitem _ hw) (fun _ w hw => ?_)
      fun _ _ h => hout h))
    refine wp_bind.2 (wp_rescue.2 (place_wp (fun _ => hout hw) fun _ files hins => ?_))
    have hstaged := hw.insert hitem hne List.prefix_rfl (fun h => by cases h)
      (by change total + bytes.length ≤ _; omega) hins
    have hplaced : Staged source base all (done ++ [item]) (total + bytes.length) files := by
      refine ⟨hstaged.outside, hstaged.folder, fun other hother => ?_, hstaged.known,
        hstaged.weight, hstaged.bound⟩
      rcases List.mem_append.1 hother with hother | hother
      · exact hstaged.placed other hother
      · obtain rfl := List.mem_singleton.1 hother
        refine ⟨bytes, mode, hread.symm.trans hnode, ?_⟩
        rw [node_insert hins, if_pos rfl]
    refine wp_bind.2 (ask_wp (fun _ => ?_) fun _ => hplaced.outside)
    exact wp_bind.2 (ask_wp (fun _ => hplaced) fun _ => hplaced.outside)
  · exact hout hw
  · exact hout hw
  · exact hout hw

/-- The files of a manifest are staged one after the other. -/
theorem stageFiles_wp (hall : ∀ item ∈ all, Valid uploads item ∧
    ¬source <+: absolute item.attachment) :
    ∀ (rest done : List SkillImportFile) (total : ℕ) (w : World), done ++ rest = all →
      OnDisk (Staged source base all done total) w →
      wp (stageFiles os source total rest)
        (fun _ => OnDisk fun f => ∃ total, Staged source base all all total f)
        (fun _ => OnDisk fun f => ∀ p, ¬source <+: p → f.node p = base.node p) w
  | [], done, total, w, hdone, hw => by
    rw [List.append_nil] at hdone
    subst hdone
    exact ⟨total, hw⟩
  | item :: rest, done, total, w, hdone, hw => by
    have hitem : item ∈ all := hdone ▸ List.mem_append_right _ List.mem_cons_self
    obtain ⟨hvalid, hattachment⟩ := hall item hitem
    refine wp_bind.2 (wp_mono (stageFile_wp hitem hvalid hattachment hw) (fun total w hw => ?_)
      fun _ _ h => h)
    exact stageFiles_wp hall rest (done ++ [item]) total w (by rw [← hdone]; simp) hw

/-- A stage has the files of its manifest, as they were uploaded. -/
theorem stage_wp (hall : ∀ item ∈ all, Valid uploads item ∧
    ¬source <+: absolute item.attachment) (hbase : w.files = base) :
    wp (stage os source all) (fun _ => OnDisk fun f => ∃ total, Staged source base all all total f)
      (fun _ => OnDisk fun f => ∀ p, ¬source <+: p → f.node p = base.node p) w := by
  subst hbase
  refine wp_bind.2 (place_wp (fun _ _ _ => rfl) fun _ files hins => ?_)
  refine stageFiles_wp hall all [] 0 _ rfl ?_
  have hfree := (insert_eq_some hins).2.2.1
  have hnone : w.files.isFolder source = false := by
    rw [isFolder, hfree]
    rfl
  have hself : ¬Below source source := fun h => h.2 rfl
  refine ⟨fun p hp => ?_, ?_, fun _ h => absurd h List.not_mem_nil, fun r v hr hv => ?_, ?_,
    Nat.zero_le _⟩
  · rw [node_insert hins, if_neg]
    rintro rfl
    exact hp List.prefix_rfl
  · rw [isFolder, node_insert hins, if_pos rfl]
    rfl
  · have hbelow : Below source (source ++ r) :=
      ⟨List.prefix_append _ _, fun heq => hr (List.self_eq_append_right.1 heq)⟩
    rw [node_insert hins, if_neg hbelow.2.symm, node_below hnone hbelow] at hv
    cases hv
  · rw [weigh_insert hins, if_neg hself, weigh_of_not_folder hnone]

/-- What is staged is within the limits of a copy. -/
theorem Staged.fits (h : Staged source base all done total f) {found : List String × List String}
    (hfew : found.1.length + found.2.length ≤ 512) (hfound : ∀ item ∈ all, Found uploads found item) :
    Fits source f := by
  have hrest : ∀ e ∈ f.entries, Below source e.1 → ∃ r ≠ [], e.1 = source ++ r ∧ ∃ item ∈ all,
      r <+: pathParts item.path ∧ (e.2.isDir = true → r ≠ pathParts item.path) := by
    rintro ⟨s, v⟩ he ⟨⟨r, rfl⟩, hne⟩
    have hr : r ≠ [] := by
      rintro rfl
      exact hne (List.append_nil source).symm
    exact ⟨r, hr, rfl, h.known r v hr (node_eq_some.2 he)⟩
  refine ⟨?_, h.weight ▸ h.bound, fun r hr => ?_⟩
  · -- every path is counted by its text, among the names or the directories of the manifest
    have hcount : f.weigh (fun _ => 1) source =
        ((f.entries.filter fun e => Below source e.1).map fun e =>
          joinParts (e.1.drop source.length)).length := by
      rw [weigh, List.length_map, List.map_const', List.sum_replicate]
      simp
    rw [hcount]
    refine le_trans (List.Subperm.length_le (List.subperm_of_subset ?_ ?_))
      (List.length_append.trans_le hfew)
    · refine List.Nodup.map_on ?_ (f.entries_nodup.filter _)
      rintro ⟨s, v⟩ he ⟨s', v'⟩ he' heq
      obtain ⟨hmem, hbelow⟩ := List.mem_filter.1 he
      obtain ⟨hmem', hbelow'⟩ := List.mem_filter.1 he'
      obtain ⟨r, hr, rfl, item, -, hpre, -⟩ := hrest _ hmem (of_decide_eq_true hbelow)
      obtain ⟨r', hr', rfl, item', -, hpre', -⟩ := hrest _ hmem' (of_decide_eq_true hbelow')
      simp only [List.drop_left] at heq
      obtain rfl := joinParts_inj hr hr' (fun part h => pathParts_free (hpre.subset h))
        (fun part h => pathParts_free (hpre'.subset h)) heq
      have hv := node_eq_some.2 hmem
      rw [node_eq_some.2 hmem'] at hv
      rw [Option.some.inj hv]
    · intro text htext
      obtain ⟨⟨s, v⟩, he, rfl⟩ := List.mem_map.1 htext
      obtain ⟨hmem, hbelow⟩ := List.mem_filter.1 he
      obtain ⟨r, hr, rfl, item, hitem, hpre, -⟩ := hrest _ hmem (of_decide_eq_true hbelow)
      obtain ⟨-, hname, hdirectories⟩ := hfound item hitem
      simp only [List.drop_left]
      by_cases heq : r = pathParts item.path
      · rw [heq, joinParts_pathParts]
        exact List.mem_append_left _ hname
      · have hlt : r.length < (pathParts item.path).length :=
          lt_of_le_of_ne hpre.length_le fun hlen => heq (hpre.eq_of_length hlen)
        have hdirectory := hdirectories r.length (List.length_pos_of_ne_nil hr) hlt
        rw [← List.prefix_iff_eq_take.1 hpre] at hdirectory
        exact List.mem_append_right _ hdirectory
  · rcases eq_or_ne r [] with rfl | hne
    · exact Nat.zero_le _
    · obtain ⟨v, hv, hdir⟩ := isFolder_iff.1 hr
      obtain ⟨item, hitem, hpre, hshort⟩ := h.known r v hne (node_eq_some.2 hv)
      have hfew := (hfound item hitem).1.few
      have hlt : r.length < (pathParts item.path).length :=
        lt_of_le_of_ne hpre.length_le fun hlen => hshort hdir (hpre.eq_of_length hlen)
      omega

end Stages

/-! ## What an import leaves alone -/

section Imports

variable {k : Skills} {source p : Path} {d : Path → Option Node} {f f' : Files} {name : String}
  {files : List SkillImportFile}

/-- The installed skills are as they were. -/
def Unchanged (k : Skills) (d : Path → Option Node) (f : Files) : Prop :=
  ∀ p, Below k.root p → f.node p = d p

theorem agents_of_below (h : Below k.root p) : k.agents <+: p := (List.prefix_append _ _).trans h.1

theorem Unchanged.insert (h : Unchanged k d f) (hp : ¬Below k.root p)
    (hins : f.insert p node = some f') : Unchanged k d f' := by
  intro s hs
  rw [node_insert hins, if_neg, h s hs]
  rintro rfl
  exact hp hs

theorem Unchanged.remove (h : Unchanged k d f) (hp : ∀ s, Below k.root s → ¬p <+: s) :
    Unchanged k d (f.remove p) := by
  intro s hs
  rw [node_remove, if_neg (hp s hs), h s hs]

/-- A stage beside the installed skills is none of them. -/
theorem not_below_stage (hname : ".latte-work-skill-import-".toList <+: name.toList)
    (hp : k.agents ++ [name] <+: p) : ¬Below k.root p := by
  intro hb
  obtain rfl := child_unique hp hb.1
  exact absurd hname (by decide)

theorem keeps_rename {target : Path} (hw : OnDisk (Unchanged k d) w) :
    wp (rename os source target) (fun _ _ => True) (fun _ => OnDisk (Unchanged k d)) w := by
  refine wp_bind.2 (ask_wp (fun _ => ?_) fun _ => hw)
  simp only [wp_bind, wp_current, wp_orError, wp_update]
  exact ⟨fun _ _ => trivial, fun _ => hw⟩

theorem inStaging_leaves {staging : Path} {m : Op Unit}
    (hstaging : ∀ s, Below k.root s → ¬staging <+: s)
    (h : wp m (fun _ _ => True) (fun _ => OnDisk (Unchanged k d)) w) :
    wp (inStaging os staging m) (fun _ _ => True) (fun _ => OnDisk (Unchanged k d)) w := by
  refine wp_bind.2 (wp_attempt.2 (wp_mono h (fun _ t _ => ?_) fun e t ht => ?_))
  · exact wp_bind.2 (discard_wp fun _ => trivial)
  · exact Keeps.past (keeps_discard fun f hf => hf.remove hstaging) ht fun _ _ ht => ht

/-- An installation that fails leaves the installed skills alone. -/
theorem install_leaves (hw : OnDisk (Unchanged k d) w) :
    wp (k.install os source) (fun _ _ => True) (fun _ => OnDisk (Unchanged k d)) w := by
  unfold install
  refine Keeps.past (keeps_ask _) hw fun _ w hw => Keeps.past (keeps_ask _) hw fun _ w hw => ?_
  refine Keeps.past Keeps.current hw fun _ w hw => ?_
  refine Keeps.past (Keeps.bailIf _ _) hw fun _ w hw => ?_
  refine Keeps.past (Keeps.orError _ _) hw fun slug w hw => ?_
  refine Keeps.past keeps_inspect hw fun _ w hw => Keeps.past (keeps_ask _) hw fun _ w hw => ?_
  refine Keeps.past Keeps.current hw fun _ w hw => ?_
  refine Keeps.past (Keeps.bailIf _ _) hw fun _ w hw => ?_
  refine Keeps.past (keeps_safeFolder fun p hp f f' hf hins => hf.insert (fun hb => ?_) hins) hw
    fun _ w hw => ?_
  · exact hb.2 (hb.1.eq_of_length_le ((List.mem_inits _ _).1 hp).length_le)
  refine Keeps.past (Keeps.forEach fun _ _ => keeps_requireAbsent) hw fun _ w hw => ?_
  refine wp_bind.2 (wp_mono (newStaging_gives ?_ ?_ w hw) ?_ fun _ _ h => h)
  · exact fun name hname f hf => hf.remove fun s hs hpre => not_below_stage hname hpre hs
  · exact fun name hname p v f f' hp hf hins => hf.insert (not_below_stage hname hp) hins
  rintro staging w ⟨⟨suffix, rfl⟩, hw⟩
  have hname : ".latte-work-skill-import-".toList <+:
      (".latte-work-skill-import-" ++ suffix).toList := by
    rw [String.toList_append]
    exact List.prefix_append _ _
  refine inStaging_leaves (fun s hs hpre => not_below_stage hname hpre hs) ?_
  refine Keeps.past (Keeps.update fun _ h => h) hw fun _ w hw => ?_
  refine Keeps.past (keeps_copyTree 9 _ _ fun p v f f' hp hf hins => ?_) hw fun _ w hw => ?_
  · exact hf.insert (not_below_stage hname ((List.prefix_append _ _).trans hp)) hins
  exact Keeps.past (keeps_ask _) hw fun _ w hw => keeps_rename hw

/-- What a manifest may be accepted with. -/
theorem accept_gives {P : Files → Prop}
    (hdirs : ∀ p, p <+: k.uploads → ∀ f f', P f → f.insert p (.dir true) = some f' → P f')
    (hremove : ∀ p, k.directory <+: p → ∀ f, P f → P (f.remove p))
    (hinsert : ∀ p v f f', k.directory <+: p → P f → f.insert p v = some f' → P f') :
    Gives (OnDisk P) (k.accept os name files) fun staging =>
      (∃ suffix, staging = k.directory ++ ["skill-upload-" ++ suffix]) ∧
        checkFiles k.uploads files = .ok () := by
  unfold accept
  refine Gives.past (keeps_ask _) fun _ => Gives.check (Gives.check (Gives.check ?_))
  refine Gives.past (keeps_createDirAll fun p hp f f' hf _ hins => ?_) fun _ => ?_
  · exact hdirs p ((List.mem_inits _ _).1 hp) f f' hf hins
  refine Gives.past (keeps_ask _) fun _ => Gives.look fun _ => Gives.check ?_
  refine Gives.bind (Gives.lift fun _ h => h) fun _ hfound => ?_
  refine Gives.mono (newStaging_gives ?_ ?_) fun staging h => ⟨h, hfound⟩
  · exact fun _ _ => hremove _ (List.prefix_append _ _)
  · exact fun _ _ p v f f' hp => hinsert p v f f' ((List.prefix_append _ _).trans hp)

theorem accept_unchanged : Gives (OnDisk (Unchanged k d)) (k.accept os name files) fun staging =>
    (∃ suffix, staging = k.directory ++ ["skill-upload-" ++ suffix]) ∧
      checkFiles k.uploads files = .ok () := by
  refine accept_gives ?_ ?_ ?_
  · refine fun p hp f f' hf hins => hf.insert (fun hb => ?_) hins
    exact not_agents (List.prefix_append _ _) ((agents_of_below hb).trans hp)
  · exact fun p hp f hf => hf.remove fun s hs hpre => not_agents (hp.trans hpre) (agents_of_below hs)
  · exact fun p v f f' hp hf hins => hf.insert (fun hb => not_agents hp (agents_of_below hb)) hins

theorem fails_bind {α β : Type} {x : Except Fault α} {g : α → Except Fault β} {e : Fault}
    (h : (x >>= g) = .error e) : x = .error e ∨ ∃ a, x = .ok a ∧ g a = .error e := by
  cases x with
  | error e' => exact .inl (congrArg _ (Except.error.inj h))
  | ok a => exact .inr ⟨a, rfl, h⟩

theorem fails_bailIf {c : Prop} [Decidable c] {e e' : Fault}
    (h : Fallible.bailIf c e = .error e') : e' = e := by
  unfold Fallible.bailIf at h
  split_ifs at h
  exact (Except.error.inj h).symm

theorem fails_checkFile {uploads : Path} {found : List String × List String}
    {item : SkillImportFile} {e : Fault} (h : checkFile uploads found item = .error e) :
    Other e := by
  rcases fails_bind h with h | ⟨-, -, h⟩
  · rw [fails_bailIf h]
    rfl
  · rcases fails_bind h with h | ⟨-, -, h⟩
    · rw [fails_bailIf h]
      rfl
    · cases h

theorem fails_checkFiles {uploads : Path} {e : Fault} (h : checkFiles uploads files = .error e) :
    Other e := by
  have hfold : ∀ (files : List SkillImportFile) (found : List String × List String),
      files.foldlM (checkFile uploads) found = .error e → Other e := by
    intro files
    induction files with
    | nil => exact fun _ h => by cases h
    | cons item rest ih =>
      intro found h
      rw [List.foldlM_cons] at h
      rcases fails_bind h with h | ⟨mid, -, h⟩
      · exact fails_checkFile h
      · exact ih mid h
  rcases fails_bind h with h | ⟨⟨names, directories⟩, -, h⟩
  · exact hfold files _ h
  · rcases fails_bind h with h | ⟨-, -, h⟩
    · rw [fails_bailIf h]
      rfl
    · rw [fails_bailIf h]
      rfl

theorem fails_accept : Fails Other (k.accept os name files) := by
  unfold accept
  refine Fails.bind fails_check fun _ => Fails.bind (Fails.bailIf rfl) fun _ => ?_
  refine Fails.bind (Fails.bailIf rfl) fun _ => Fails.bind (Fails.bailIf rfl) fun _ => ?_
  refine Fails.bind fails_createDirAll fun _ => Fails.bind (fails_ask rfl) fun _ => ?_
  refine Fails.bind Fails.current fun _ => Fails.bind (Fails.bailIf rfl) fun _ => ?_
  exact Fails.bind (Fails.lift fun _ => fails_checkFiles) fun _ => fails_newStaging

theorem fails_withContext {e : Fault} (h : Other e) {m : Op Unit} (hm : Fails Other m) :
    Fails Other (withContext e m) :=
  Fails.rescue hm fun _ _ => Fails.fail h

theorem fails_stage : Fails Other (stage os source files) := by
  have hfile : ∀ total item, Fails Other (stageFile os source total item) := by
    intro total item
    unfold stageFile
    refine Fails.bind fails_check fun _ => Fails.bind (fails_ask rfl) fun _ => ?_
    refine Fails.bind Fails.current fun w => ?_
    dsimp only
    split
    · refine Fails.bind (Fails.bailIf rfl) fun _ => ?_
      refine Fails.bind (fails_withContext (show Other (.folderRefused item.path) from rfl)
        fails_createDirAll) fun _ => ?_
      refine Fails.bind (fails_withContext (show Other (.fileRefused item.path) from rfl)
        fails_place) fun _ => ?_
      exact Fails.bind fails_check fun _ => Fails.bind (fails_ask rfl) fun _ => Fails.pure _
    · exact Fails.fail rfl
    · exact Fails.fail rfl
    · exact Fails.fail rfl
  have hfiles : ∀ (files : List SkillImportFile) (total : ℕ),
      Fails Other (stageFiles os source total files) := by
    intro files
    induction files with
    | nil => exact fun _ => Fails.pure _
    | cons item rest ih => exact fun total => Fails.bind (hfile total item) fun total => ih total
  exact Fails.bind fails_place fun _ => hfiles files 0

/-- An upload is not in a stage. -/
theorem attachment_outside {suffix : String} {path : String}
    (h : isCompleted k.uploads path = true) :
    ¬k.directory ++ ["skill-upload-" ++ suffix] ++ [name] <+: absolute path := by
  intro hpre
  simp only [isCompleted, Bool.and_eq_true] at h
  split at h
  · rename_i last hlast
    simp only [Bool.and_eq_true, decide_eq_true_eq] at h
    obtain ⟨r, hr⟩ := List.getLast?_eq_some_iff.1 hlast
    rw [hr, List.dropLast_concat] at h
    rw [hr, h.2.1.1.1] at hpre
    unfold uploads at hpre
    have hpart : k.directory ++ ["skill-upload-" ++ suffix] <+:
        k.directory ++ ["paste-tmp"] ++ [last] := (List.prefix_append _ _).trans hpre
    have hname := child_unique hpart (List.prefix_append _ _)
    have hchars := congrArg String.toList hname
    rw [String.toList_append] at hchars
    simp at hchars
  · cases h.2

variable (os k name files w)

/-- The import of a manifest that is accepted, up to the copy, does not fail for the limits of
the copy. -/
theorem importFiles_fails :
    wp (k.importFiles os name files) (fun _ _ => True) (fun e _ => Other e) w := by
  have haccept := @accept_gives os k name files (fun _ => True) (fun _ _ _ _ _ _ => trivial)
    (fun _ _ _ _ => trivial) fun _ _ _ _ _ _ _ => trivial
  refine wp_bind.2 (wp_mono (wp_and (haccept w trivial) (fails_accept w)) ?_ fun _ _ h => h.2)
  rintro staging w₁ ⟨⟨⟨⟨suffix, rfl⟩, hchecked⟩, -⟩, -⟩
  obtain ⟨found, hfew, hfound⟩ := checkFiles_found hchecked
  have hall : ∀ item ∈ files, Valid k.uploads item ∧
      ¬k.directory ++ ["skill-upload-" ++ suffix] ++ [name] <+: absolute item.attachment :=
    fun item hitem => ⟨(hfound item hitem).1, attachment_outside (hfound item hitem).1.completed⟩
  refine inStaging_fails ?_
  refine wp_bind.2 (wp_mono (wp_and (stage_wp hall rfl) (fails_stage w₁)) ?_ fun _ _ h => h.2)
  rintro - w₂ ⟨⟨total, hstaged⟩, -⟩
  exact install_limits ((List.prefix_append _ _).trans (List.prefix_append _ _))
    (hstaged.fits hfew hfound)

/-- An import that fails leaves the installed skills alone. -/
theorem importFiles_leaves (hw : OnDisk (Unchanged k d) w) :
    wp (k.importFiles os name files) (fun _ _ => True) (fun _ => OnDisk (Unchanged k d)) w := by
  refine wp_bind.2 (wp_mono (accept_unchanged w hw) ?_ fun _ _ h => h)
  rintro staging w₁ ⟨⟨⟨suffix, rfl⟩, hchecked⟩, hw₁⟩
  obtain ⟨found, -, hfound⟩ := checkFiles_found hchecked
  have hall : ∀ item ∈ files, Valid k.uploads item ∧
      ¬k.directory ++ ["skill-upload-" ++ suffix] ++ [name] <+: absolute item.attachment :=
    fun item hitem => ⟨(hfound item hitem).1, attachment_outside (hfound item hitem).1.completed⟩
  have houtside : ∀ f : Files, (∀ p, ¬k.directory ++ ["skill-upload-" ++ suffix] ++ [name] <+: p →
      f.node p = w₁.files.node p) → Unchanged k d f := by
    intro f hf p hp
    rw [hf p fun hpre => ?_, hw₁ p hp]
    rw [List.append_assoc] at hpre
    exact not_agents ((List.prefix_append _ _).trans hpre) (agents_of_below hp)
  refine inStaging_leaves (fun s hs hpre => ?_) ?_
  · exact not_agents ((List.prefix_append _ _).trans hpre) (agents_of_below hs)
  refine wp_bind.2 (wp_mono (stage_wp hall rfl) ?_ fun _ t ht => houtside _ ht)
  rintro - w₂ ⟨total, hstaged⟩
  exact install_leaves (houtside _ hstaged.outside)

/-- What is accepted is staged as it was uploaded, inside the stage only; the copy that installs it
does not fail for its limits; and an import that fails leaves the installed skills alone. -/
theorem import_kept :
    (∀ e, ((k.importFiles os name files).run w).1 = .error e → e.copyLimit = false) ∧
    (∀ staging w₁ result w₂, (k.accept os name files).run w = (.ok staging, w₁) →
      (stage os (staging ++ [name]) files).run w₁ = (result, w₂) →
      (∀ p, ¬staging ++ [name] <+: p → w₂.files.node p = w₁.files.node p) ∧
      (result = .ok () → ∀ item ∈ files, ∃ bytes mode,
        w₁.files.node (absolute item.attachment) = some (.file bytes mode) ∧
        Below (staging ++ [name]) (joinPath (staging ++ [name]) item.path) ∧
        w₂.files.node (joinPath (staging ++ [name]) item.path) =
          some (.file bytes (regularMode 0o600)))) ∧
    ∀ e, ((k.importFiles os name files).run w).1 = .error e → ∀ p, Below k.root p →
      ((k.importFiles os name files).run w).2.files.node p = w.files.node p := by
  refine ⟨fun e he => ?_, ?_, fun e he => ?_⟩
  · exact (wp_run (importFiles_fails os w k name files) (Prod.ext he rfl)).2 e rfl
  · intro staging w₁ result w₂ haccept hstage
    have haccepted := @accept_gives os k name files (fun _ => True) (fun _ _ _ _ _ _ => trivial)
      (fun _ _ _ _ => trivial) fun _ _ _ _ _ _ _ => trivial
    obtain ⟨⟨⟨suffix, rfl⟩, hchecked⟩, -⟩ := (wp_run (haccepted w trivial) haccept).1 _ rfl
    obtain ⟨found, -, hfound⟩ := checkFiles_found hchecked
    have hall : ∀ item ∈ files, Valid k.uploads item ∧
        ¬k.directory ++ ["skill-upload-" ++ suffix] ++ [name] <+: absolute item.attachment :=
      fun item hitem => ⟨(hfound item hitem).1, attachment_outside (hfound item hitem).1.completed⟩
    obtain ⟨hok, hfail⟩ := wp_run (stage_wp hall rfl) hstage
    refine ⟨?_, fun hresult item hitem => ?_⟩
    · rcases result with e | u
      · exact hfail e rfl
      · obtain ⟨total, hstaged⟩ := hok u rfl
        exact hstaged.outside
    · obtain ⟨total, hstaged⟩ := hok () hresult
      obtain ⟨bytes, mode, hupload, hplaced⟩ := hstaged.placed item hitem
      rw [(hall item hitem).1.join]
      refine ⟨bytes, mode, hupload, ⟨List.prefix_append _ _, fun heq => ?_⟩, hplaced⟩
      exact pathParts_ne_nil item.path (List.self_eq_append_right.1 heq)
  · exact (wp_run (importFiles_leaves os w k name files fun p _ => rfl) (Prod.ext he rfl)).2 e rfl

end Imports

end Skills

end LatteWork
