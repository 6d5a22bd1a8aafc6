import LatteWork.Lib.Paging
import LatteWork.Proofs.UndoRestores

/-!
# Pages of a change list

A page has the entries from its offset on, as many as 64 KiB and 64 entries take. Following the
offsets reads the list once, and the page of a path has the path (`change_pages`).
-/

namespace LatteWork

open Fallible

/-- The loop of `summary_page` takes as many entries as fit. -/
theorem pageEntries_spec : ∀ {l : List TaskChange} {bytes : ℕ},
    (∀ entry ∈ l, entry.toJson.size ≤ 64 * 1024) → bytes ≤ 64 * 1024 →
    ∃ page rest, pageEntries bytes l = .ok page ∧ l = page ++ rest ∧
      bytes + (page.map (·.toJson.size)).sum ≤ 64 * 1024 ∧
      ∀ entry ∈ rest.head?, 64 * 1024 < bytes + (page.map (·.toJson.size)).sum + entry.toJson.size
  | [], bytes, _, hbytes => ⟨[], [], rfl, rfl, by simpa using hbytes, by simp⟩
  | entry :: rest, bytes, hsize, hbytes => by
    have hentry := hsize entry List.mem_cons_self
    by_cases hfull : 64 * 1024 < bytes + entry.toJson.size
    · refine ⟨[], entry :: rest, ?_, rfl, by simpa using hbytes, by simpa using hfull⟩
      simp only [pageEntries, bailIf, if_neg (Nat.not_lt_of_le hentry), if_pos hfull, bind, Except.bind]
    · obtain ⟨page, left, hok, hsplit, hsum, hleft⟩ := @pageEntries_spec rest
        (bytes + entry.toJson.size) (fun e he => hsize e (List.mem_cons_of_mem _ he)) (by omega)
      refine ⟨entry :: page, left, ?_, by rw [hsplit, List.cons_append], ?_, fun e he => ?_⟩
      · simp only [pageEntries, bailIf, if_neg (Nat.not_lt_of_le hentry), if_neg hfull, hok, bind,
          Except.bind]
      · rw [List.map_cons, List.sum_cons, ← Nat.add_assoc]
        exact hsum
      · rw [List.map_cons, List.sum_cons, ← Nat.add_assoc]
        exact hleft e he

/-- What a page of a list says, wherever it starts. -/
structure PageOfChanges (summary : ChangeSummary) (offset : ℕ) (page : ChangeSummary) : Prop where
  count : page.entries.length ≤ 64
  bytes : (page.entries.map (·.toJson.size)).sum ≤ 64 * 1024
  totals : page.added = summary.added ∧ page.removed = summary.removed ∧
    page.binaryFiles = summary.binaryFiles ∧ page.truncated = summary.truncated
  files : page.totalFiles =
    if 0 < offset ∨ page.entries.length < summary.entries.length then some summary.entries.length
    else none

theorem summaryPage_spec {summary : ChangeSummary}
    (hsize : ∀ entry ∈ summary.entries, entry.toJson.size ≤ 64 * 1024)
    (hcount : summary.entries.length < 2 ^ 32) {offset : ℕ} (hoffset : offset ≤ summary.entries.length) :
    ∃ page, summaryPage summary offset = .ok page ∧ PageOfChanges summary offset page ∧
      page.entries <+: summary.entries.drop offset ∧
      (offset < summary.entries.length → page.entries ≠ []) ∧
      page.nextOffset = if offset + page.entries.length < summary.entries.length then
        some (offset + page.entries.length) else none := by
  obtain ⟨entries, rest, hok, hsplit, hbytes, hrest⟩ := @pageEntries_spec
    ((summary.entries.drop offset).take 64) 0
    (fun e he => hsize e (List.mem_of_mem_drop (List.mem_of_mem_take he))) (Nat.zero_le _)
  have hlength : entries.length ≤ 64 := by
    have := congrArg List.length hsplit
    rw [List.length_append, List.length_take] at this
    omega
  have hfront : entries <+: summary.entries.drop offset :=
    (List.prefix_append entries rest).trans (hsplit ▸ List.take_prefix _ _)
  have hne : offset < summary.entries.length → entries ≠ [] := by
    rintro hlt rfl
    rw [List.nil_append] at hsplit
    rcases rest with _ | ⟨first, rest⟩
    · have hlong := congrArg List.length hsplit
      rw [List.length_take, List.length_drop, List.length_nil] at hlong
      omega
    · have hmem : first ∈ (summary.entries.drop offset).take 64 := hsplit ▸ List.mem_cons_self
      have hfits := hsize first (List.mem_of_mem_drop (List.mem_of_mem_take hmem))
      have hlarge := hrest first rfl
      simp only [List.map_nil, List.sum_nil] at hlarge
      omega
  have hpage : ∃ page, summaryPage summary offset = .ok page ∧ page.entries = entries ∧
      page.added = summary.added ∧ page.removed = summary.removed ∧
      page.binaryFiles = summary.binaryFiles ∧ page.truncated = summary.truncated ∧
      page.totalFiles = (if 0 < offset ∨ offset + entries.length < summary.entries.length then
        some summary.entries.length else none) ∧
      page.nextOffset = if offset + entries.length < summary.entries.length then
        some (offset + entries.length) else none := by
    simp only [summaryPage, bailIf, if_neg (Nat.not_lt_of_le hoffset), hok, bind, Except.bind]
    by_cases hpart : 0 < offset ∨ offset + entries.length < summary.entries.length
    · rw [if_pos hpart, if_neg (Nat.not_le_of_lt hcount)]
      exact ⟨_, rfl, rfl, rfl, rfl, rfl, rfl, (if_pos hpart).symm, rfl⟩
    · rw [if_neg hpart]
      exact ⟨_, rfl, rfl, rfl, rfl, rfl, rfl, (if_neg hpart).symm,
        (if_neg fun hlt => hpart (.inr hlt)).symm⟩
  obtain ⟨page, hpage, rfl, hadded, hremoved, hbinary, htruncated, hfiles, hnext⟩ := hpage
  refine ⟨page, hpage, ⟨hlength, by simpa using hbytes,
    ⟨hadded, hremoved, hbinary, htruncated⟩, ?_⟩, hfront, hne, hnext⟩
  rw [hfiles]
  refine if_congr ?_ rfl rfl
  omega

/-- The page of a path has it. -/
theorem pageFor_path {svc : Services} {objects : Objects} {t : FrozenTurn} {full : ChangeSummary}
    (hfull : t.full svc objects = .ok full)
    (hsize : ∀ entry ∈ full.entries, entry.toJson.size ≤ 64 * 1024)
    (hcount : full.entries.length < 2 ^ 32) {path : String} (hpath : path ∈ full.entries.map (·.path)) :
    ∃ page, t.pageFor svc objects none (some path) = .ok page ∧ path ∈ page.entries.map (·.path) := by
  obtain ⟨index, hindex⟩ : ∃ index, full.entries.findIdx? (·.path = path) = some index := by
    rw [← Option.isSome_iff_exists, List.findIdx?_isSome, List.any_eq_true]
    obtain ⟨entry, hentry, rfl⟩ := List.mem_map.1 hpath
    exact ⟨entry, hentry, decide_eq_true rfl⟩
  obtain ⟨hlt, hat, -⟩ := List.findIdx?_eq_some_iff_getElem.1 hindex
  have hstart : index / 64 * 64 ≤ index := Nat.div_mul_le_self index 64
  obtain ⟨first, hfirst, -⟩ := summaryPage_spec hsize hcount (hstart.trans (Nat.le_of_lt hlt))
  simp only [FrozenTurn.pageFor, hfull, hindex, Option.getD_some, hfirst, bailIf, bind, Except.bind]
  rw [if_neg (by omega)]
  dsimp only
  split_ifs with hany hbig hbig
  · omega
  · dsimp only
    refine ⟨first, hfirst, ?_⟩
    obtain ⟨entry, hentry, heq⟩ := List.any_eq_true.1 hany
    exact List.mem_map.2 ⟨entry, hentry, of_decide_eq_true heq⟩
  · omega
  · -- a page of large entries ended before the path: the one that starts at it has it
    obtain ⟨page, hpage, -, hfront, hne, -⟩ := summaryPage_spec hsize hcount (Nat.le_of_lt hlt)
    refine ⟨page, hpage, ?_⟩
    have hne := hne hlt
    rcases hentries : page.entries with _ | ⟨entry, rest⟩
    · exact absurd hentries hne
    · rw [hentries, List.drop_eq_getElem_cons hlt] at hfront
      rw [(List.cons_prefix_cons.1 hfront).1, List.map_cons]
      exact List.mem_cons.2 (.inl (of_decide_eq_true hat).symm)

/-- Following the offsets reads the list once and ends. -/
theorem follow_changes {summary : ChangeSummary}
    (hsize : ∀ entry ∈ summary.entries, entry.toJson.size ≤ 64 * 1024)
    (hcount : summary.entries.length < 2 ^ 32) {fuel : ℕ} (hfuel : summary.entries.length < fuel) :
    ∃ pages, Paging.followOffsets (fun offset => (summaryPage summary offset).toOption)
        ChangeSummary.nextOffset fuel 0 = some pages ∧
      pages.flatMap (·.entries) = summary.entries ∧
      (∀ page ∈ pages.dropLast, page.entries ≠ []) ∧
      (∀ page ∈ pages, ∃ offset, PageOfChanges summary offset page) ∧
      ∃ total, ∀ page ∈ pages, page.totalFiles = total := by
  obtain ⟨pages, hfollow, hflat, hlast, hshows⟩ := @Paging.followOffsets_covers _ _ summary.entries
    (fun offset => (summaryPage summary offset).toOption) ChangeSummary.nextOffset
    (·.entries) (PageOfChanges summary) (fun offset hoffset => by
      obtain ⟨page, hok, hpage, hfront, hne, hnext⟩ := summaryPage_spec hsize hcount hoffset
      exact ⟨page, by rw [hok]; rfl, hpage, hfront, hne, hnext⟩) fuel 0 (Nat.zero_le _) (by omega)
  refine ⟨pages, hfollow, by rw [hflat, List.drop_zero], hlast, fun page hpage => ?_, ?_⟩
  · obtain ⟨offset, -, h, -⟩ := hshows page hpage
    exact ⟨offset, h⟩
  · by_cases hone : ∃ page, pages = [page]
    · obtain ⟨page, rfl⟩ := hone
      exact ⟨page.totalFiles, by simp⟩
    · refine ⟨some summary.entries.length, fun page hpage => ?_⟩
      obtain ⟨offset, -, h, hrest⟩ := hshows page hpage
      rw [h.files]
      refine if_pos ?_
      rcases hrest with heq | hpos | hmore
      · exact absurd ⟨page, heq⟩ hone
      · exact .inl hpos
      · exact .inr (by omega)

def onlyChange : ChangeSummary := { entries := [⟨"a", "A", some 1, some 0⟩] }

/-- Offsets are counted with 32 bits: a list with more entries has no first page. -/
theorem summaryPage_uncounted {summary : ChangeSummary}
    (hsize : ∀ entry ∈ summary.entries, entry.toJson.size ≤ 64 * 1024)
    (hcount : 2 ^ 32 ≤ summary.entries.length) :
    summaryPage summary 0 = .error "out of range integral type conversion attempted" := by
  obtain ⟨page, rest, hok, hsplit, -⟩ := @pageEntries_spec ((summary.entries.drop 0).take 64) 0
    (fun e he => hsize e (List.mem_of_mem_drop (List.mem_of_mem_take he))) (Nat.zero_le _)
  have hlength : page.length ≤ 64 := by
    have := congrArg List.length hsplit
    rw [List.length_append, List.length_take] at this
    omega
  simp only [summaryPage, bailIf, Nat.not_lt_zero, if_false, hok, bind, Except.bind]
  rw [if_pos (.inr (by omega)), if_pos hcount]

def uncounted : ChangeSummary := { entries := List.replicate (2 ^ 32) ⟨"a", "A", some 1, some 0⟩ }

end LatteWork
