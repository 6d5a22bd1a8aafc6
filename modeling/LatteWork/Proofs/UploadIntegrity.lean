import LatteWork.Lib.Machine
import LatteWork.Server.Attachments

/-!
# What an upload leaves in the directory

As long as no write fails half way, a temporary file has just the chunks that were acknowledged,
and what is stored and reserved stays within the limit of the directory.
-/

namespace LatteWork

open Assoc

namespace Dir

variable {d : Dir} {name file : String} {data old : List UInt8}

theorem bytes_put : (d.put name data).bytes file = if file = name then some data else d.bytes file := by
  simp only [Dir.bytes, Dir.put, lookup_put]
  split <;> rfl

theorem bytes_unlink : (d.unlink name).bytes file = if file = name then none else d.bytes file := by
  simp only [Dir.bytes, Dir.unlink, lookup_drop]
  split <;> rfl

theorem bytes_none (h : d.entries.lookup name = none) : d.bytes name = none := by
  rw [Dir.bytes, h]
  rfl

theorem stored_put : (d.put name data).stored = (d.unlink name).stored + data.length := total_put

theorem stored_unlink (h : d.bytes name = some data) :
    (d.unlink name).stored + data.length = d.stored := by
  have hlook : d.entries.lookup name = some (some data) := Option.join_eq_some_iff.1 h
  exact total_drop (f := fun o : Option (List UInt8) => (o.getD []).length) d.nodup hlook

theorem stored_unlink_new (h : d.entries.lookup name = none) : (d.unlink name).stored = d.stored := by
  exact congrArg (total _) (drop_of_lookup h)

end Dir

namespace Attachments

/-- What was asked and answered. -/
abbrev Log := List ((Call × Op) × List Answer)

/-- The chunks of an upload that were acknowledged since it was begun, put together. -/
def acked (id : String) (log : Log) : List UInt8 :=
  log.foldl (fun bytes e =>
    match e with
    | ((_, .begin ..), [.begun j]) => if j = id then [] else bytes
    | ((_, .chunk j _ data), [.ok]) => if j = id then bytes ++ data else bytes
    | _ => bytes) []

/-- The size that was declared when an upload was begun. -/
def declared (id : String) (log : Log) : ℕ :=
  log.foldl (fun n e =>
    match e with
    | ((_, .begin _ size), [.begun j]) => if j = id then size else n
    | _ => n) 0

/-- What was finished is in the directory, with what was acknowledged and as much as declared. -/
structure Kept (a : Attachments) (before : Log) (id : String) (entry : FileEntry) : Prop where
  size : (acked id before).length = declared id before
  bytes : ∃ root file, a.root = some root ∧ entry.path = root ++ "/" ++ file ∧
    a.dir.bytes file = some (acked id before) ∧ ∀ e ∈ a.pending, e.2.file ≠ file

/-- The uploads are as the log says, and the limits hold. -/
structure Sound (a : Attachments) (log : Log) : Prop where
  keys : (a.pending.map (·.1)).Nodup
  apart : ∀ e ∈ a.pending, ∀ f ∈ a.pending, e.2.file = f.2.file → e.1 = f.1
  bytes : ∀ e ∈ a.pending, a.dir.bytes e.2.file = some (acked e.1 log)
  written : ∀ e ∈ a.pending, (acked e.1 log).length = e.2.written ∧ e.2.written ≤ e.2.size
  size : ∀ e ∈ a.pending, declared e.1 log = e.2.size
  few : a.pending.length ≤ 8
  room : a.dir.stored + a.reserved ≤ maxCache
  done : ∀ before c id entry after,
    log = before ++ ((c, .finish id), [.finished entry]) :: after → Kept a before id entry

variable {a : Attachments} {log : Log} {id : String} {p : Pending} {c : Call}

theorem Sound.pending (h : Sound a log) (hp : a.pending.lookup id = some p) :
    (id, p) ∈ a.pending ∧ a.dir.bytes p.file = some (acked id log) ∧
      (acked id log).length = p.written ∧ p.written ≤ p.size ∧ declared id log = p.size := by
  have hmem := mem_of_lookup hp
  exact ⟨hmem, h.bytes _ hmem, (h.written _ hmem).1, (h.written _ hmem).2, h.size _ hmem⟩

/-- Another upload has another file. -/
theorem Sound.other (h : Sound a log) (hp : a.pending.lookup id = some p) {e : String × Pending}
    (he : e ∈ a.pending) (hid : e.1 ≠ id) : e.2.file ≠ p.file := fun hfile =>
  hid (h.apart e he _ (mem_of_lookup hp) hfile)

section Forget

theorem forget_none (hp : a.pending.lookup id = none) : a.forget id = a := by
  rw [forget, hp]

theorem forget_some (hp : a.pending.lookup id = some p) :
    a.forget id = { a with dir := a.dir.unlink p.file, pending := drop id a.pending } := by
  rw [forget, hp]

/-- An upload that is dropped makes room. -/
theorem Sound.forget_room (h : Sound a log) (id : String) :
    (a.forget id).dir.stored + (a.forget id).reserved ≤ a.dir.stored + a.reserved := by
  rcases hp : a.pending.lookup id with _ | p
  · rw [forget_none hp]
  · obtain ⟨-, hbytes, -, -, -⟩ := h.pending hp
    have hdir := Dir.stored_unlink hbytes
    have hres : (a.forget id).reserved ≤ a.reserved := by
      rw [forget_some hp]
      have := total_drop (f := fun q : Pending => q.size - q.written) h.keys hp
      simp only [reserved]
      omega
    rw [forget_some hp] at hres ⊢
    simp only at hres ⊢
    omega

theorem Sound.forget (h : Sound a log) (id : String) : Sound (a.forget id) log := by
  have hroom := h.forget_room id
  rcases hp : a.pending.lookup id with _ | p
  · rwa [forget_none hp]
  have hsub : ∀ e ∈ drop id a.pending, e ∈ a.pending ∧ e.1 ≠ id := fun e he => mem_drop.1 he
  have hfile : ∀ e ∈ drop id a.pending, e.2.file ≠ p.file := fun e he =>
    h.other hp (hsub e he).1 (hsub e he).2
  rw [forget_some hp] at hroom ⊢
  constructor
  · exact nodup_drop h.keys
  · exact fun e he f hf => h.apart e (hsub e he).1 f (hsub f hf).1
  · intro e he
    rw [Dir.bytes_unlink, if_neg (hfile e he)]
    exact h.bytes e (hsub e he).1
  · exact fun e he => h.written e (hsub e he).1
  · exact fun e he => h.size e (hsub e he).1
  · exact length_drop_le.trans h.few
  · exact hroom.trans h.room
  · intro before c id' entry after hlog
    obtain ⟨hsize, root, file, hroot, hpath, hbytes, hapart⟩ := h.done before c id' entry after hlog
    refine ⟨hsize, root, file, hroot, hpath, ?_, fun e he => hapart e (hsub e he).1⟩
    rw [Dir.bytes_unlink, if_neg (Ne.symm (hapart _ (mem_of_lookup hp)))]
    exact hbytes

theorem forget_all (ids : List String) (h : Sound a log) :
    Sound (ids.foldl (fun a id => a.forget id) a) log := by
  induction ids generalizing a with
  | nil => exact h
  | cons id ids ih => exact ih (h.forget id)

theorem Sound.retain (h : Sound a log) (now : ℕ) : Sound (a.retain now) log := forget_all _ h


/-- What is not a pending upload's file a drop leaves alone. -/
theorem forget_entries (name : String) (h : a.dir.entries.lookup name = none) :
    (a.forget id).dir.entries.lookup name = none := by
  rcases hp : a.pending.lookup id with _ | p
  · rwa [forget_none hp]
  · rw [forget_some hp]
    simp only [Dir.unlink, lookup_drop, h, ite_self]

theorem forget_pending : (a.forget id).pending = drop id a.pending := by
  rcases hp : a.pending.lookup id with _ | p
  · rw [forget_none hp, drop_of_lookup hp]
  · rw [forget_some hp]

theorem forget_root : (a.forget id).root = a.root := by
  rcases hp : a.pending.lookup id with _ | p
  · rw [forget_none hp]
  · rw [forget_some hp]

end Forget

section Logged

theorem acked_begun (log : Log) (name : String) (size : ℕ) (j : String) :
    acked j (log ++ [((c, .begin name size), [.begun id])]) =
      if id = j then [] else acked j log := by
  simp [acked]

theorem acked_chunk (log : Log) (offset : ℕ) (data : List UInt8) (j : String) :
    acked j (log ++ [((c, .chunk id offset data), [.ok])]) =
      if id = j then acked j log ++ data else acked j log := by
  simp [acked]

theorem declared_begun (log : Log) (name : String) (size : ℕ) (j : String) :
    declared j (log ++ [((c, .begin name size), [.begun id])]) =
      if id = j then size else declared j log := by
  simp [declared]

theorem declared_chunk (log : Log) (offset : ℕ) (data : List UInt8) (j : String) :
    declared j (log ++ [((c, .chunk id offset data), [.ok])]) = declared j log := by
  simp [declared]

/-- What is finished later is what was finished. -/
theorem done_concat {e : (Call × Op) × List Answer}
    (hold : ∀ before c id entry after,
      log = before ++ ((c, .finish id), [.finished entry]) :: after → Kept a before id entry)
    (hnew : ∀ c id entry, e = ((c, .finish id), [.finished entry]) → Kept a log id entry)
    (before : Log) (c : Call) (id : String) (entry : FileEntry) (after : Log)
    (h : log ++ [e] = before ++ ((c, .finish id), [.finished entry]) :: after) :
    Kept a before id entry := by
  rcases Machine.entry_cases h with ⟨rfl, he, -⟩ | ⟨rest, -, hlog⟩
  · exact hnew c id entry he.symm
  · exact hold before c id entry rest hlog

/-- An entry that begins nothing and takes no data. -/
theorem Sound.logged (h : Sound a log) {e : (Call × Op) × List Answer}
    (hacked : ∀ j, acked j (log ++ [e]) = acked j log)
    (hdeclared : ∀ j, declared j (log ++ [e]) = declared j log)
    (hnew : ∀ c id entry, e = ((c, .finish id), [.finished entry]) → Kept a log id entry) :
    Sound a (log ++ [e]) where
  keys := h.keys
  apart := h.apart
  bytes := fun e he => by rw [hacked, h.bytes e he]
  written := fun e he => by
    rw [hacked]
    exact h.written e he
  size := fun e he => by rw [hdeclared, h.size e he]
  few := h.few
  room := h.room
  done := done_concat h.done hnew

end Logged

section Steps

variable {file name : String} {size : ℕ}

/-- A kept file stays kept when its directory changes elsewhere. -/
theorem Kept.elsewhere {a' : Attachments} {before : Log} {entry : FileEntry}
    (h : Kept a before id entry) (hroot : a'.root = a.root)
    (hbytes : ∀ f data, a.dir.bytes f = some data → (∀ e ∈ a.pending, e.2.file ≠ f) →
      a'.dir.bytes f = some data ∧ ∀ e ∈ a'.pending, e.2.file ≠ f) : Kept a' before id entry := by
  obtain ⟨hsize, root, f, hr, hpath, hf, hapart⟩ := h
  exact ⟨hsize, root, f, hroot.trans hr, hpath, (hbytes f _ hf hapart).1, (hbytes f _ hf hapart).2⟩

/-- The file of an upload is there, so it is not one that is not. -/
theorem Sound.file_ne (h : Sound a log) (hnew : a.dir.entries.lookup file = none)
    {e : String × Pending} (he : e ∈ a.pending) : e.2.file ≠ file := by
  rintro rfl
  have hbytes := h.bytes e he
  rw [Dir.bytes_none hnew] at hbytes
  cases hbytes

/-- An upload is begun where there is room for it. -/
theorem Sound.add (h : Sound a log) (hid : a.pending.lookup id = none)
    (hfew : a.pending.length < 8) (hroom : a.dir.stored + a.reserved + size ≤ maxCache)
    (hnew : a.dir.entries.lookup file = none) (now : ℕ) :
    Sound { a with
        dir := a.dir.put file []
        pending := put id { file, name, size, written := 0, touched := now } a.pending }
      (log ++ [((c, .begin name size), [.begun id])]) := by
  have hdrop : drop id a.pending = a.pending := drop_of_lookup hid
  constructor
  · exact nodup_put h.keys
  · intro e he f hf hfile
    rcases mem_put.1 he with ⟨he, -⟩ | rfl <;> rcases mem_put.1 hf with ⟨hf, -⟩ | rfl
    · exact h.apart e he f hf hfile
    · exact absurd hfile (h.file_ne hnew he)
    · exact absurd hfile.symm (h.file_ne hnew hf)
    · rfl
  · intro e he
    rw [acked_begun, Dir.bytes_put]
    rcases mem_put.1 he with ⟨he, hne⟩ | rfl
    · rw [if_neg (h.file_ne hnew he), if_neg (Ne.symm hne), h.bytes e he]
    · rw [if_pos rfl, if_pos rfl]
  · intro e he
    rw [acked_begun]
    rcases mem_put.1 he with ⟨he, hne⟩ | rfl
    · rw [if_neg (Ne.symm hne)]
      exact h.written e he
    · rw [if_pos rfl]
      exact ⟨rfl, Nat.zero_le _⟩
  · intro e he
    rw [declared_begun]
    rcases mem_put.1 he with ⟨he, hne⟩ | rfl
    · rw [if_neg (Ne.symm hne), h.size e he]
    · rw [if_pos rfl]
  · rw [put, List.length_append, hdrop, List.length_singleton]
    omega
  · have hstored : (a.dir.put file []).stored = a.dir.stored := by
      rw [Dir.stored_put, Dir.stored_unlink_new hnew, List.length_nil, Nat.add_zero]
    simp only [reserved, total_put, hdrop] at hroom ⊢
    omega
  · refine done_concat (fun before c id entry after hlog => ?_) (by simp)
    refine (h.done before c id entry after hlog).elsewhere rfl fun f data hf hapart => ⟨?_, ?_⟩
    · rw [Dir.bytes_put, if_neg, hf]
      rintro rfl
      rw [Dir.bytes_none hnew] at hf
      cases hf
    · intro e he
      rcases mem_put.1 he with ⟨he, -⟩ | rfl
      · exact hapart e he
      · rintro rfl
        rw [Dir.bytes_none hnew] at hf
        cases hf

theorem Sound.insert (h : Sound a log) (hfew : a.pending.length < 8)
    (hroom : a.dir.stored + a.reserved + size ≤ maxCache)
    (hnew : a.dir.entries.lookup file = none) (now : ℕ) :
    Sound (a.insert id file name size now) (log ++ [((c, .begin name size), [.begun id])]) := by
  refine (h.forget id).add ?_ ?_ ?_ (forget_entries file hnew) now
  · rw [forget_pending, lookup_drop, if_pos rfl]
  · rw [forget_pending]
    exact Nat.lt_of_le_of_lt length_drop_le hfew
  · have := h.forget_room id
    omega

/-- A chunk is appended where the last one ended. -/
theorem Sound.grow (h : Sound a log) (hp : a.pending.lookup id = some p) {data : List UInt8}
    (hfits : p.written + data.length ≤ p.size) (offset now : ℕ) :
    Sound { a.append p data with
        pending := put id { p with written := p.written + data.length, touched := now } a.pending }
      (log ++ [((c, .chunk id offset data), [.ok])]) := by
  obtain ⟨hmem, hbytes, hlen, hle, hsize⟩ := h.pending hp
  have hdir : (a.append p data).dir = a.dir.put p.file (acked id log ++ data) := by
    rw [append, hbytes]
    rfl
  have hother : ∀ e ∈ a.pending, e.1 ≠ id → e.2.file ≠ p.file := fun e he hne => h.other hp he hne
  constructor
  · exact nodup_put h.keys
  · intro e he f hf hfile
    rcases mem_put.1 he with ⟨he, hne⟩ | rfl <;> rcases mem_put.1 hf with ⟨hf, hnf⟩ | rfl
    · exact h.apart e he f hf hfile
    · exact absurd hfile (hother e he hne)
    · exact absurd hfile.symm (hother f hf hnf)
    · rfl
  · intro e he
    rw [acked_chunk, hdir, Dir.bytes_put]
    rcases mem_put.1 he with ⟨he, hne⟩ | rfl
    · rw [if_neg (hother e he hne), if_neg (Ne.symm hne), h.bytes e he]
    · rw [if_pos rfl, if_pos rfl]
  · intro e he
    rw [acked_chunk]
    rcases mem_put.1 he with ⟨he, hne⟩ | rfl
    · rw [if_neg (Ne.symm hne)]
      exact h.written e he
    · rw [if_pos rfl, List.length_append, hlen]
      exact ⟨rfl, hfits⟩
  · intro e he
    rw [declared_chunk]
    rcases mem_put.1 he with ⟨he, -⟩ | rfl
    · exact h.size e he
    · exact hsize
  · refine length_put_le.trans ?_
    rw [hp]
    exact h.few
  · have hstored := Dir.stored_unlink hbytes
    have hreserved := total_drop (f := fun q : Pending => q.size - q.written) h.keys hp
    have hroom := h.room
    simp only [reserved, hdir, Dir.stored_put, total_put, List.length_append] at hroom ⊢
    omega
  · refine done_concat (fun before c id' entry after hlog => ?_) (by simp)
    refine (h.done before c id' entry after hlog).elsewhere rfl fun f data' hf hapart => ⟨?_, ?_⟩
    · rw [hdir, Dir.bytes_put, if_neg (Ne.symm (hapart _ hmem)), hf]
    · intro e he
      rcases mem_put.1 he with ⟨he, -⟩ | rfl
      · exact hapart e he
      · exact hapart (id, p) hmem

/-- A write of nothing changes no file. -/
theorem Sound.append_nil (h : Sound a log) (hp : a.pending.lookup id = some p) :
    Sound (a.append p []) log := by
  obtain ⟨hmem, hbytes, -⟩ := h.pending hp
  have hdir : (a.append p []).dir = a.dir.put p.file (acked id log) := by
    rw [append, hbytes, List.append_nil]
    rfl
  have hsame : ∀ f, (a.append p []).dir.bytes f = a.dir.bytes f := by
    intro f
    rw [hdir, Dir.bytes_put]
    split
    · rename_i heq
      rw [heq, hbytes]
    · rfl
  constructor
  · exact h.keys
  · exact h.apart
  · exact fun e he => (hsame _).trans (h.bytes e he)
  · exact h.written
  · exact h.size
  · exact h.few
  · have hstored := Dir.stored_unlink hbytes
    have hroom := h.room
    rw [hdir, Dir.stored_put]
    simp only [reserved, append] at hroom ⊢
    omega
  · intro before c id' entry after hlog
    exact (h.done before c id' entry after hlog).elsewhere rfl fun f data hf hapart =>
      ⟨(hsame f).trans hf, hapart⟩

/-- A finished upload has its file under the name it keeps. -/
theorem Sound.publish (h : Sound a log) (hp : a.pending.lookup id = some p)
    (hall : p.written = p.size) (hnew : a.dir.entries.lookup (fileName id p) = none) :
    Sound (a.publish id p) log ∧ (a.publish id p).dir.bytes (fileName id p) = some (acked id log) ∧
      (acked id log).length = declared id log ∧
      ∀ e ∈ (a.publish id p).pending, e.2.file ≠ fileName id p := by
  obtain ⟨hmem, hbytes, hlen, hle, hsize⟩ := h.pending hp
  have hsub : ∀ e ∈ drop id a.pending, e ∈ a.pending ∧ e.1 ≠ id := fun e he => mem_drop.1 he
  have hdir : (a.publish id p).dir = (a.dir.unlink p.file).put (fileName id p) (acked id log) := by
    rw [Attachments.publish, hbytes]
    rfl
  have hkept : ∀ f data, a.dir.bytes f = some data → f ≠ p.file →
      (a.publish id p).dir.bytes f = some data := by
    intro f data hf hne
    rw [hdir, Dir.bytes_put, if_neg, Dir.bytes_unlink, if_neg hne, hf]
    rintro rfl
    rw [Dir.bytes_none hnew] at hf
    cases hf
  refine ⟨⟨nodup_drop h.keys, ?_, ?_, ?_, ?_, ?_, ?_, ?_⟩, ?_, by rw [hlen, hall, hsize], ?_⟩
  · exact fun e he f hf => h.apart e (hsub e he).1 f (hsub f hf).1
  · exact fun e he => hkept _ _ (h.bytes e (hsub e he).1) (h.other hp (hsub e he).1 (hsub e he).2)
  · exact fun e he => h.written e (hsub e he).1
  · exact fun e he => h.size e (hsub e he).1
  · exact length_drop_le.trans h.few
  · have hnew' : (a.dir.unlink p.file).entries.lookup (fileName id p) = none := by
      simp only [Dir.unlink, lookup_drop, hnew, ite_self]
    have hstored := Dir.stored_unlink hbytes
    have hreserved := total_drop (f := fun q : Pending => q.size - q.written) h.keys hp
    have hroom := h.room
    rw [hdir, Dir.stored_put, Dir.stored_unlink_new hnew']
    simp only [reserved, Attachments.publish] at hroom ⊢
    omega
  · intro before c id' entry after hlog
    refine (h.done before c id' entry after hlog).elsewhere rfl fun f data hf hapart => ⟨?_, ?_⟩
    · exact hkept f data hf (Ne.symm (hapart _ hmem))
    · exact fun e he => hapart e (hsub e he).1
  · rw [hdir, Dir.bytes_put, if_pos rfl]
  · exact fun e he => h.file_ne hnew (hsub e he).1

end Steps

section Serving

/-- A write that fails has written nothing. -/
def Call.whole (c : Call) : Bool := c.fails.getD 0 = 0

variable {name : String} {size : ℕ}

theorem begin_sound (h : Sound a log) :
    Prog.wp (begin c name size)
      (fun id t => Sound t (log ++ [((c, .begin name size), [.begun id])]))
      (fun _ t => Sound t log) a := by
  have h' := h.retain c.now
  unfold begin
  simp only [Prog.wp_bind, Prog.wp_update, Prog.wp_bailIf, Prog.wp_current, Prog.wp_orError,
    Prog.wp_pure]
  refine ⟨fun _ => h', fun _ => ⟨fun _ => h', fun _ => ⟨fun _ => h', fun hfew => ⟨fun _ => h',
    fun _ => ⟨fun _ => h', fun _ => ⟨fun _ => h', fun hroom => ⟨fun file _ => ⟨fun _ => h',
      fun hnew => ?_⟩, fun _ => h'⟩⟩⟩⟩⟩⟩⟩
  exact h'.insert (by omega) (by omega) (Option.not_isSome_iff_eq_none.1 hnew) c.now

theorem chunk_sound (h : Sound a log) (hc : c.whole) (id : String) (offset : ℕ)
    (data : List UInt8) :
    Prog.wp (chunk c id offset data)
      (fun _ t => Sound t (log ++ [((c, .chunk id offset data), [.ok])]))
      (fun _ t => Sound t log) a := by
  unfold chunk
  simp only [Prog.wp_bind, Prog.wp_current, Prog.wp_orError, Prog.wp_bailIf]
  refine ⟨fun p hp => ⟨fun _ => h, fun hfits => ?_⟩, fun _ => h⟩
  cases hfails : c.fails with
  | some count =>
    obtain rfl : count = 0 := by simpa [Call.whole, hfails] using hc
    simp only [Prog.wp_bind, Prog.wp_update, Prog.wp_fail, List.take_zero]
    exact h.append_nil hp
  | none =>
    simp only [Prog.wp_bind, Prog.wp_update]
    exact h.grow hp (by omega) offset c.now

theorem finish_sound (h : Sound a log) (id : String) :
    Prog.wp (finish c id)
      (fun entry t => Sound t (log ++ [((c, .finish id), [.finished entry])]))
      (fun _ t => Sound t log) a := by
  unfold finish
  simp only [Prog.wp_bind, Prog.wp_current, Prog.wp_orError, Prog.wp_bailIf]
  refine ⟨fun p hp => ⟨fun _ => h, fun hall => ?_⟩, fun _ => h⟩
  rw [Prog.wp_ite]
  refine ⟨fun _ => h.forget id, fun hkept => ?_⟩
  simp only [not_or, Bool.not_eq_false, Bool.not_eq_true, Option.isSome_eq_false_iff,
    Option.isNone_iff_eq_none] at hkept
  obtain ⟨hsound, hbytes, hsize, hapart⟩ := h.publish hp (by omega) hkept.2.2
  simp only [Prog.wp_bind, Prog.wp_update, Prog.wp_orError, Prog.wp_pure]
  refine ⟨fun root hroot => ?_, fun _ => hsound⟩
  refine hsound.logged (fun j => by simp [acked]) (fun j => by simp [declared]) ?_
  rintro c' id' entry heq
  obtain ⟨⟨-, hid⟩, hentry⟩ : (c = c' ∧ id = id') ∧ _ = entry := by simpa using heq
  subst hid hentry
  exact ⟨hsize, root, fileName id p, hroot, rfl, hbytes, hapart⟩

/-- One request keeps the uploads as the log says. -/
theorem serve_sound (h : Sound a log) (hc : c.whole) (op : Op) :
    Prog.wp (serve (c, op)) (fun out t => Sound t (log ++ [((c, op), out)]))
      (fun _ t => Sound t log) a := by
  cases op with
  | begin name size => exact Prog.wp_bind.2 (begin_sound h)
  | chunk id offset data => exact Prog.wp_bind.2 (chunk_sound h hc id offset data)
  | finish id => exact Prog.wp_bind.2 (finish_sound h id)
  | abort id =>
    refine Prog.wp_bind.2 (Prog.wp_update.2 ?_)
    exact (h.forget id).logged (fun j => by simp [acked]) (fun j => by simp [declared]) (by simp)

theorem start_sound (hpending : a.pending = []) (hroom : a.dir.stored ≤ maxCache) :
    Sound a [] := by
  constructor
  · simp [hpending]
  · simp [hpending]
  · simp [hpending]
  · simp [hpending]
  · simp [hpending]
  · simp [hpending]
  · simpa [reserved, hpending, total] using hroom
  · intro before c id entry after h
    simp at h

end Serving

/-- As long as no write fails half way, whatever is asked of a server that starts on a directory
within its limit: few uploads are pending, what is stored and reserved stays within the limit, and a
finished file has just the chunks that were acknowledged and the declared size. -/
theorem upload_kept (a : Attachments) (hpending : a.pending = []) (hroom : a.dir.stored ≤ maxCache)
    (requests : List (Call × Op))
    (hwhole : Machine.Served serve (fun _ => true) (fun _ r => r.1.whole) a requests) :
    let life := Machine.run serve (fun _ => true) a requests
    life.state.pending.length ≤ 8 ∧
      life.state.dir.stored + life.state.reserved ≤ maxCache ∧
      ∀ before c id entry after,
        life.log = before ++ ((c, .finish id), [.finished entry]) :: after →
          Kept life.state before id entry := by
  intro life
  have hlife : Machine.Reached Sound life :=
    Machine.run_keeps (start_sound hpending hroom)
      (fun _ _ r out _ h hr hrun => (Prog.wp_run (serve_sound h hr r.2) hrun).1 out rfl)
      (fun _ _ r e _ _ h hr hrun => (Prog.wp_run (serve_sound h hr r.2) hrun).2 e rfl) hwhole
  obtain ⟨s, hs, hlive⟩ := hlife
  rw [← hlive Machine.run_lives] at hs
  exact ⟨hs.few, hs.room, hs.done⟩

/-- An empty directory. -/
def fresh : Attachments := { root := some "/r", dir := ⟨[], List.nodup_nil⟩ }

/-- Two bytes are sent in one chunk; the first write of it may fail, and it is sent again. -/
def retried (fails : Option ℕ) : List (Call × Op) :=
  [({ now := 0, id := "u", temp := some "t" }, .begin "a" 2),
    ({ now := 1, fails }, .chunk "u" 0 [1, 2]), ({ now := 2 }, .chunk "u" 0 [1, 2]),
    ({ now := 3 }, .finish "u")]

/-- A write that fails half way leaves what it wrote in the file, in front of what is sent again. -/
theorem retried_doubles :
    let life := Machine.run serve (fun _ => true) fresh (retried (some 1))
    ∃ before c id entry, life.log = before ++ [((c, .finish id), [.finished entry])] ∧
      acked id before = [1, 2] ∧ declared id before = 2 ∧
      life.state.dir.bytes "u-a" = some [1, 1, 2] ∧ ¬Kept life.state before id entry := by
  intro life
  have hdouble : life.state.dir.bytes "u-a" = some [1, 1, 2] := by decide +kernel
  refine ⟨[(({ now := 0, id := "u", temp := some "t" }, .begin "a" 2), [.begun "u"]),
    (({ now := 2 }, .chunk "u" 0 [1, 2]), [.ok])], { now := 3 }, "u",
    { name := "a", path := "/r/u-a", directory := false }, ?_, ?_, ?_, ?_, ?_⟩
  · decide +kernel
  · decide
  · decide
  · exact hdouble
  · rintro ⟨-, root, file, hroot, hpath, hbytes, -⟩
    obtain rfl : "/r" = root := Option.some.inj (show some "/r" = some root from hroot)
    obtain rfl : "u-a" = file := by
      rwa [show "/r/u-a" = "/r" ++ "/" ++ "u-a" from rfl, String.append_right_inj] at hpath
    exact absurd (Option.some.inj (hdouble.symm.trans hbytes)) (by decide)

theorem retried_kept :
    let life := Machine.run serve (fun _ => true) fresh (retried (some 0))
    life.state.pending.length ≤ 8 ∧
      life.state.dir.stored + life.state.reserved ≤ maxCache ∧
      ∀ before c id entry after,
        life.log = before ++ ((c, .finish id), [.finished entry]) :: after →
          Kept life.state before id entry :=
  upload_kept fresh rfl (by decide) (retried (some 0)) (by decide +kernel)

end Attachments

end LatteWork
