import Mathlib.Data.List.Forall2
import Mathlib.Data.Nat.Notation

/-!
# Reading a log backwards in pages

A reader asks for the newest page, then for the page below the cursor it was given, until a page
comes without a cursor. When every page stands for a nonempty stretch of the log that ends below
its cursor, and gives the key of the stretch's oldest entry as the next cursor, the stretches put
together are the log, and the cursors go down.

A reader who starts at the old end asks for what is above the last key it saw, until it is told
that nothing is left.
-/

namespace Paging

variable {α π : Type*} (key : α → ℕ)

/-- The entries below a cursor. -/
def below (log : List α) : Option ℕ → List α
  | none => log
  | some c => log.filter fun a => key a < c

/-- The newest stretch of a log is cut off at its oldest entry: the cursor is that entry's key, and
there is none when nothing is left behind it. -/
structure Cut (log stretch : List α) (cursor : Option ℕ) : Prop where
  suffix : stretch <:+ log
  done : cursor = none → stretch = log
  oldest : ∀ c, cursor = some c → stretch.head?.map key = some c

/-- Ask for pages from a cursor on, the newest first, at most `fuel` times. The pages come oldest
first. -/
def follow (page : Option ℕ → Option π) (cursor : π → Option ℕ) : ℕ → Option ℕ → Option (List π)
  | 0, _ => none
  | fuel + 1, c => (page c).bind fun p =>
    match cursor p with
    | none => some [p]
    | some c => (follow page cursor fuel (some c)).map (· ++ [p])

variable {key} {log : List α}

theorem below_sorted (h : log.Pairwise (key · < key ·)) (c : Option ℕ) :
    (below key log c).Pairwise (key · < key ·) := by
  cases c with
  | none => exact h
  | some c => exact h.filter _

/-- What is below a cursor is a front of the log. -/
theorem below_front (h : log.Pairwise (key · < key ·)) (c : Option ℕ) : below key log c <+: log := by
  rcases c with _ | c
  · exact List.prefix_rfl
  induction log with
  | nil => exact List.prefix_rfl
  | cons a rest ih =>
    obtain ⟨ha, hrest⟩ := List.pairwise_cons.1 h
    have hih : rest.filter (fun b => key b < c) <+: rest := ih hrest
    by_cases hac : key a < c
    · rw [below, List.filter_cons_of_pos (by simpa using hac)]
      exact (List.prefix_cons_inj a).2 hih
    · rw [below, List.filter_eq_nil_iff.2]
      · exact List.nil_prefix
      · intro b hb
        rcases List.mem_cons.1 hb with rfl | hb
        · simpa using hac
        · have := ha b hb
          simp only [decide_eq_true_eq]
          omega

/-- Below the key of an entry are the entries before it. -/
theorem filter_lt_of_split {ahead rest : List α} {a : α}
    (h : (ahead ++ a :: rest).Pairwise (key · < key ·)) :
    (ahead ++ a :: rest).filter (fun b => key b < key a) = ahead := by
  rw [List.pairwise_append, List.pairwise_cons] at h
  obtain ⟨_, ⟨hrest, _⟩, hahead⟩ := h
  rw [List.filter_append, List.filter_eq_self.2, List.filter_eq_nil_iff.2, List.append_nil]
  · intro b hb
    rcases List.mem_cons.1 hb with rfl | hb
    · simp
    · simpa using Nat.le_of_lt (hrest b hb)
  · intro b hb
    simpa using hahead b hb a List.mem_cons_self

/-- A cut with a cursor: the entries below the new cursor are those the page left behind. -/
theorem Cut.below_eq (hs : log.Pairwise (key · < key ·)) {c : Option ℕ} {stretch : List α} {n : ℕ}
    (hc : Cut key (below key log c) stretch (some n)) :
    stretch ≠ [] ∧ below key log c = below key log (some n) ++ stretch ∧
      ∀ m, c = some m → n < m := by
  obtain ⟨ahead, hahead⟩ := hc.suffix
  have hold := hc.oldest n rfl
  cases stretch with
  | nil => simp at hold
  | cons a rest =>
    simp only [List.head?_cons, Option.map_some, Option.some.injEq] at hold
    subst hold
    have hsorted := below_sorted hs c
    rw [← hahead] at hsorted
    have hcut : (below key log c).filter (fun b => key b < key a) = ahead := by
      rw [← hahead]
      exact filter_lt_of_split hsorted
    have ha : a ∈ below key log c := by rw [← hahead]; simp
    refine ⟨by simp, ?_, fun m hm => ?_⟩
    · rw [← hahead]
      congr 1
      rw [← hcut]
      cases c with
      | none => rfl
      | some m =>
        have ham : key a < m := by simpa [below] using (List.mem_filter.1 ha).2
        rw [below, below, List.filter_filter]
        refine List.filter_congr fun b _ => ?_
        have : key b < key a → key b < m := fun h => Nat.lt_trans h ham
        by_cases h : key b < key a <;> simp [h, this]
    · subst hm
      simpa [below] using (List.mem_filter.1 ha).2

/-- Once it ended, more fuel changes nothing. -/
theorem follow_mono {page : Option ℕ → Option π} {cursor : π → Option ℕ} :
    ∀ {n m : ℕ} {c : Option ℕ} {pages : List π}, follow page cursor n c = some pages → n ≤ m →
      follow page cursor m c = some pages
  | 0, _, _, _, h, _ => by simp [follow] at h
  | n + 1, 0, _, _, _, hle => absurd hle (Nat.not_succ_le_zero n)
  | n + 1, m + 1, c, pages, h, hle => by
    simp only [follow, Option.bind_eq_some_iff] at h ⊢
    obtain ⟨p, hp, h⟩ := h
    refine ⟨p, hp, ?_⟩
    rcases hcur : cursor p with _ | c'
    · simpa [hcur] using h
    · simp only [hcur, Option.map_eq_some_iff] at h ⊢
      obtain ⟨rest, hrest, hpages⟩ := h
      exact ⟨rest, follow_mono hrest (Nat.le_of_succ_le_succ hle), hpages⟩

/-- Following the cursors reads the whole log, in stretches, and ends. -/
theorem follow_covers {page : Option ℕ → Option π} {cursor : π → Option ℕ}
    {Shows : π → List α → Prop} (hs : log.Pairwise (key · < key ·))
    (hpage : ∀ c, ∃ p stretch, page c = some p ∧ Shows p stretch ∧
      Cut key (below key log c) stretch (cursor p)) :
    ∀ (fuel : ℕ) (c : Option ℕ), (below key log c).length < fuel →
      ∃ pages stretches, follow page cursor fuel c = some pages ∧
        List.Forall₂ Shows pages stretches ∧ stretches.flatten = below key log c ∧
        (pages.filterMap cursor).Pairwise (· < ·) ∧
        ∀ n ∈ pages.filterMap cursor, ∀ m, c = some m → n < m
  | 0, _, h => absurd h (Nat.not_lt_zero _)
  | fuel + 1, c, h => by
    obtain ⟨p, stretch, hp, hshow, hcut⟩ := hpage c
    rcases hcur : cursor p with _ | n
    · rw [hcur] at hcut
      refine ⟨[p], [stretch], by simp [follow, hp, hcur], .cons hshow .nil, ?_, ?_, ?_⟩
      · simp [hcut.done rfl]
      · simp [hcur]
      · simp [hcur]
    · rw [hcur] at hcut
      obtain ⟨hne, hsplit, hlt⟩ := hcut.below_eq hs
      have hshort : (below key log (some n)).length < fuel := by
        have hpos : 0 < stretch.length := List.length_pos_iff.2 hne
        rw [hsplit, List.length_append] at h
        omega
      obtain ⟨pages, stretches, hf, hall, hflat, hdown, hbelow⟩ :=
        follow_covers hs hpage fuel (some n) hshort
      refine ⟨pages ++ [p], stretches ++ [stretch], by simp [follow, hp, hcur, hf],
        List.rel_append hall (.cons hshow .nil), ?_, ?_, ?_⟩
      · rw [List.flatten_append, hflat, hsplit]
        simp
      · rw [List.filterMap_append, List.pairwise_append]
        refine ⟨hdown, by simp [hcur], fun a ha b hb => ?_⟩
        obtain rfl : n = b := by simpa [hcur, eq_comm] using hb
        exact hbelow a ha n rfl
      · intro a ha m hm
        rw [List.filterMap_append] at ha
        rcases List.mem_append.1 ha with ha | ha
        · exact Nat.lt_trans (hbelow a ha n rfl) (hlt m hm)
        · obtain rfl : n = a := by simpa [hcur, eq_comm] using ha
          exact hlt m hm

/-- The entries above a cursor. -/
def above (key : α → ℕ) (log : List α) (c : ℕ) : List α := log.filter fun a => c < key a

/-- Ask for what is above a cursor, then above the last entry that came, at most `fuel` times. -/
def followUp {β : Type*} (page : ℕ → Option (List β × Bool)) (key : β → ℕ) :
    ℕ → ℕ → Option (List (List β))
  | 0, _ => none
  | fuel + 1, c => (page c).bind fun p =>
    if p.2 then p.1.getLast?.bind fun b => (followUp page key fuel (key b)).map (p.1 :: ·)
    else some [p.1]

/-- Above the last entry of a stretch at the front is what is behind the stretch. -/
theorem above_last {stretch rest : List α} {a : α} {c : ℕ} (hs : log.Pairwise (key · < key ·))
    (h : above key log c = stretch ++ a :: rest) : above key log (key a) = rest := by
  have hsorted : (stretch ++ a :: rest).Pairwise (key · < key ·) := h ▸ hs.filter _
  have ha : c < key a := by
    have hmem : a ∈ above key log c := by simp [h]
    simpa using (List.mem_filter.1 hmem).2
  have htwice : above key log (key a) = (above key log c).filter fun b => key a < key b := by
    rw [above, above, List.filter_filter]
    refine List.filter_congr fun b _ => ?_
    have : key a < key b → c < key b := Nat.lt_trans ha
    by_cases hb : key a < key b <;> simp [hb, this]
  rw [List.pairwise_append, List.pairwise_cons] at hsorted
  obtain ⟨_, ⟨hrest, _⟩, hfront⟩ := hsorted
  rw [htwice, h, List.filter_append, List.filter_eq_nil_iff.2, List.nil_append,
    List.filter_cons_of_neg (by simp), List.filter_eq_self.2]
  · intro b hb
    simpa using hrest b hb
  · intro b hb
    simpa using Nat.le_of_lt (hfront b hb a List.mem_cons_self)

/-- What is above a cursor is the end of the log. -/
theorem above_suffix (hs : log.Pairwise (key · < key ·)) (c : ℕ) : above key log c <:+ log := by
  induction log with
  | nil => exact List.suffix_rfl
  | cons a rest ih =>
    obtain ⟨ha, hrest⟩ := List.pairwise_cons.1 hs
    by_cases hc : c < key a
    · have hall : above key (a :: rest) c = a :: rest := by
        refine List.filter_eq_self.2 fun b hb => ?_
        rcases List.mem_cons.1 hb with rfl | hb
        · simpa using hc
        · simpa using Nat.lt_trans hc (ha b hb)
      exact ⟨[], hall⟩
    · rw [above, List.filter_cons_of_neg (by simpa using hc)]
      exact (ih hrest).trans (List.suffix_cons a rest)

/-- When every page is a front stretch of what is above its cursor and is not empty while rows are
left, following the last keys reads everything once and ends. -/
theorem followUp_covers {β : Type*} {page : ℕ → Option (List β × Bool)} {key' : β → ℕ} {f : α → β}
    (hs : log.Pairwise (key · < key ·)) (hkey : ∀ a, key' (f a) = key a)
    (hpage : ∀ c, ∃ stretch rest, above key log c = stretch ++ rest ∧
      page c = some (stretch.map f, !rest.isEmpty) ∧ (rest ≠ [] → stretch ≠ [])) :
    ∀ fuel c, (above key log c).length < fuel →
      ∃ pages, followUp page key' fuel c = some pages ∧ pages.flatten = (above key log c).map f
  | 0, _, h => absurd h (Nat.not_lt_zero _)
  | fuel + 1, c, h => by
    obtain ⟨stretch, rest, hsplit, hp, hne⟩ := hpage c
    rcases rest with _ | ⟨b, rest⟩
    · refine ⟨[stretch.map f], by simp [followUp, hp], ?_⟩
      rw [hsplit]
      simp
    · obtain ⟨front, a, rfl⟩ := (List.eq_nil_or_concat' stretch).resolve_left (hne (by simp))
      rw [List.append_assoc, List.singleton_append] at hsplit
      have habove := above_last hs hsplit
      have hshort : (above key log (key a)).length < fuel := by
        rw [habove]
        rw [hsplit] at h
        simp only [List.length_append, List.length_cons] at h ⊢
        omega
      obtain ⟨pages, hf, hflat⟩ := followUp_covers hs hkey hpage fuel (key a) hshort
      refine ⟨(front ++ [a]).map f :: pages, by simp [followUp, hp, hkey, hf], ?_⟩
      rw [List.flatten_cons, hflat, habove, hsplit]
      simp

section Offsets

variable (page : ℕ → Option π) (next : π → Option ℕ)

/-- Ask for the page at an offset, then at the next offset it names, at most `fuel` times. -/
def followOffsets : ℕ → ℕ → Option (List π)
  | 0, _ => none
  | fuel + 1, offset => (page offset).bind fun p =>
    match next p with
    | none => some [p]
    | some n => (followOffsets fuel n).map (p :: ·)

variable {page next}

/-- When each page is a front of what is left at its offset and names the offset behind it, and is
not empty while something is left, following the offsets reads everything once and ends. -/
theorem followOffsets_covers {entries : π → List α} {Shows : ℕ → π → Prop}
    (hpage : ∀ offset ≤ log.length, ∃ p, page offset = some p ∧ Shows offset p ∧
      entries p <+: log.drop offset ∧ (offset < log.length → entries p ≠ []) ∧
      next p = if offset + (entries p).length < log.length then some (offset + (entries p).length)
        else none) :
    ∀ fuel offset, offset ≤ log.length → log.length - offset < fuel →
      ∃ pages, followOffsets page next fuel offset = some pages ∧
        pages.flatMap entries = log.drop offset ∧ (∀ p ∈ pages.dropLast, entries p ≠ []) ∧
        ∀ p ∈ pages, ∃ place, offset ≤ place ∧ Shows place p ∧
          (pages = [p] ∨ offset < place ∨ place + (entries p).length < log.length)
  | 0, _, _, h => absurd h (Nat.not_lt_zero _)
  | fuel + 1, offset, hle, hfuel => by
    obtain ⟨p, hp, hshows, hfront, hne, hnext⟩ := hpage offset hle
    obtain ⟨rest, hrest⟩ := hfront
    have hlength : (entries p).length + rest.length = log.length - offset := by
      rw [← List.length_append, hrest, List.length_drop]
    split_ifs at hnext with hmore
    · have hnonempty := hne (by omega)
      have hpos := List.length_pos_iff.2 hnonempty
      obtain ⟨pages, hfollow, hflat, hlast, hall⟩ :=
        followOffsets_covers hpage fuel (offset + (entries p).length) (by omega) (by omega)
      have hdrop : log.drop (offset + (entries p).length) = rest := by
        rw [← List.drop_drop, ← hrest, List.drop_left]
      refine ⟨p :: pages, by simp [followOffsets, hp, hnext, hfollow], ?_, fun q hq => ?_,
        fun q hq => ?_⟩
      · rw [List.flatMap_cons, hflat, hdrop, hrest]
      · rcases pages with _ | ⟨first, pages⟩
        · simp at hq
        · rw [List.dropLast_cons_cons] at hq
          rcases List.mem_cons.1 hq with rfl | hq
          · exact hnonempty
          · exact hlast q hq
      · rcases List.mem_cons.1 hq with rfl | hq
        · exact ⟨offset, Nat.le_refl _, hshows, .inr (.inr hmore)⟩
        · obtain ⟨place, hplace, hq, -⟩ := hall q hq
          exact ⟨place, by omega, hq, .inr (.inl (by omega))⟩
    · have hnil : rest = [] := List.length_eq_zero_iff.1 (by omega)
      refine ⟨[p], by simp [followOffsets, hp, hnext], ?_, by simp, fun q hq => ?_⟩
      · rw [← hrest, hnil]
        simp
      · obtain rfl := List.mem_singleton.1 hq
        exact ⟨offset, Nat.le_refl _, hshows, .inl rfl⟩

end Offsets

section Room

variable {room : List α → α → Bool}

/-- Take entries as long as there is room for the next one behind those taken before. -/
def takeRun (room : List α → α → Bool) : List α → List α → List α × List α
  | front, [] => (front, [])
  | front, a :: rest =>
    if room front a then takeRun room (front ++ [a]) rest else (front, a :: rest)

/-- At each of its entries the run had room. -/
def Fitting (room : List α → α → Bool) (run : List α) : Prop :=
  ∀ front a, front ++ [a] <+: run → room front a = true

theorem Fitting.nil : Fitting room [] := fun _ _ h => absurd h.length_le (by simp)

theorem Fitting.concat {run : List α} {a : α} (h : Fitting room run) (ha : room run a = true) :
    Fitting room (run ++ [a]) := by
  intro front b hb
  rcases List.prefix_concat_iff.1 hb with heq | hpre
  · obtain ⟨rfl, hab⟩ := List.append_inj' heq rfl
    rwa [(List.cons.inj hab).1]
  · exact h front b hpre

theorem Fitting.of_prefix {run longer : List α} (h : Fitting room longer) (hp : run <+: longer) :
    Fitting room run := fun front a ha => h front a (ha.trans hp)

/-- Where there is no room behind `n` entries, a run is no longer. -/
theorem Fitting.length_le {run : List α} {n : ℕ} (h : Fitting room run)
    (hroom : ∀ front a, front.length = n → room front a = false) : run.length ≤ n := by
  by_contra hlong
  have hlen : n < run.length := Nat.lt_of_not_le hlong
  have hgo : room (run.take n) run[n] = true :=
    h _ _ (by rw [List.take_append_getElem hlen]; exact List.take_prefix _ _)
  rw [hroom _ _ (by rw [List.length_take]; omega)] at hgo
  cases hgo

/-- What was taken and what is left, and why nothing more was taken. -/
theorem takeRun_spec : ∀ l front : List α, Fitting room front →
    (takeRun room front l).1 ++ (takeRun room front l).2 = front ++ l ∧
      Fitting room (takeRun room front l).1 ∧
      ∀ a ∈ (takeRun room front l).2.head?, room (takeRun room front l).1 a = false
  | [], front, h => ⟨rfl, h, by simp [takeRun]⟩
  | a :: rest, front, h => by
    unfold takeRun
    split_ifs with ha
    · obtain ⟨hsplit, hfit, hmax⟩ := takeRun_spec rest (front ++ [a]) (h.concat ha)
      exact ⟨by rw [hsplit, List.append_assoc, List.singleton_append], hfit, hmax⟩
    · exact ⟨rfl, h, by simpa using ha⟩

/-- No run with room at each entry reaches further. -/
theorem Fitting.prefix_takeRun {run : List α} (h : Fitting room run) (rest : List α) :
    run <+: (takeRun room [] (run ++ rest)).1 := by
  obtain ⟨hsplit, -, hmax⟩ := takeRun_spec (run ++ rest) [] (@Fitting.nil α room)
  generalize takeRun room [] (run ++ rest) = p at hsplit hmax
  obtain ⟨taken, left⟩ := p
  have hsplit : taken ++ left = run ++ rest := hsplit
  rcases List.append_eq_append_iff.1 hsplit with ⟨more, hrun, hleft⟩ | ⟨more, hrun, -⟩
  · rcases more with _ | ⟨a, more⟩
    · exact ⟨[], by rw [hrun, List.append_nil, List.append_nil]⟩
    · have hstop : room taken a = false := hmax a (by rw [hleft]; rfl)
      have hgo : room taken a = true := h taken a ⟨more, by rw [hrun]; simp⟩
      rw [hstop] at hgo
      cases hgo
  · exact ⟨more, hrun.symm⟩

/-- Cutting a list off behind the longest possible run changes nothing. -/
theorem takeRun_take {room : List α → α → Bool} {n : ℕ}
    (hroom : ∀ run, Fitting room run → run.length < n) (l : List α) :
    (takeRun room [] (l.take n)).1 = (takeRun room [] l).1 ∧
      (takeRun room [] (l.take n)).2.head? = (takeRun room [] l).2.head? := by
  obtain ⟨hsplit, hfit, -⟩ := takeRun_spec l [] (@Fitting.nil α room)
  obtain ⟨hsplit', hfit', -⟩ := takeRun_spec (l.take n) [] (@Fitting.nil α room)
  rw [List.nil_append] at hsplit hsplit'
  have hlong : (takeRun room [] (l.take n)).1 <+: (takeRun room [] l).1 := by
    have hrest : (takeRun room [] (l.take n)).1 ++
        ((takeRun room [] (l.take n)).2 ++ l.drop n) = l := by
      rw [← List.append_assoc, hsplit', List.take_append_drop]
    have := hfit'.prefix_takeRun ((takeRun room [] (l.take n)).2 ++ l.drop n)
    rwa [hrest] at this
  have hshort : (takeRun room [] l).1 <+: (takeRun room [] (l.take n)).1 := by
    have hpre : (takeRun room [] l).1 <+: l.take n :=
      List.prefix_take_iff.2 ⟨⟨_, hsplit⟩, Nat.le_of_lt (hroom _ hfit)⟩
    obtain ⟨rest, hrest⟩ := hpre
    have := hfit.prefix_takeRun rest
    rwa [hrest] at this
  have heq := hlong.eq_of_length_le hshort.length_le
  refine ⟨heq, ?_⟩
  have hrest : (takeRun room [] (l.take n)).2 =
      (takeRun room [] l).2.take (n - (takeRun room [] l).1.length) := by
    rw [heq] at hsplit'
    rw [← List.append_cancel_left_eq (takeRun room [] l).1, hsplit']
    nth_rewrite 1 [← hsplit]
    rw [List.take_append, List.take_of_length_le (Nat.le_of_lt (hroom _ hfit))]
  rw [hrest, List.head?_take, if_neg (Nat.sub_ne_zero_of_lt (hroom _ hfit))]

end Room

end Paging
