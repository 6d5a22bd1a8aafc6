import LatteWork.Store.History
import LatteWork.Workbench.Transcript

/-!
# The first window of a conversation

A client that opens a session reads its history backwards, until a page needs no earlier one.
-/

namespace LatteWork

/-- The loop of the first `poll`s, and the page that ended it. A page that goes no further is an
error. -/
def initialWindow (request : Option ℕ → Option HistoryPage) :
    ℕ → Option ℕ → List Event → Option (List Event × HistoryPage)
  | 0, _, _ => none
  | fuel + 1, before, replay => (request before).bind fun r =>
    let next := r.before
    if r.hasMore && (next.all fun n => before.any (· ≤ n)) then
      none -- 对话分页未前进，请重试
    else
      let before := next.or before
      let replay := appendEvents r.events replay
      if r.needsEarlier && r.hasMore then initialWindow request fuel before replay
      else some (replay, r)

variable {request : Option ℕ → Option HistoryPage}

theorem initialWindow_mono : ∀ {n m : ℕ} {before : Option ℕ} {replay : List Event}
    {window : List Event × HistoryPage}, initialWindow request n before replay = some window →
      n ≤ m → initialWindow request m before replay = some window
  | 0, _, _, _, _, h, _ => by simp [initialWindow] at h
  | n + 1, 0, _, _, _, _, hle => absurd hle (Nat.not_succ_le_zero n)
  | n + 1, m + 1, before, replay, window, h, hle => by
    unfold initialWindow at h ⊢
    rcases hr : request before with _ | r
    · rw [hr] at h
      cases h
    rw [hr, Option.bind_some] at h
    rw [Option.bind_some]
    dsimp only at h ⊢
    split_ifs at h ⊢
    · exact initialWindow_mono h (Nat.le_of_succ_le_succ hle)
    · exact h

end LatteWork
