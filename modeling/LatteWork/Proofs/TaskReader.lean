import LatteWork.Workbench.TaskInfo

/-!
# What a reader of task information keeps

A reader shows what a new one would show: what it keeps is what the events it was given make, and a
text that may go on leaves nothing behind. How the text is cut into events makes no difference.
-/

namespace LatteWork

namespace TaskInfo

open Resources

variable {parse : String → Option Resources.Url} {heap : ℕ → Event} {project : Option String}
  {st : State} {c : Collector} {r : Reader} {call : Call}

section shared

/-- The maps that the collector of a pending text shares are the same in both states. -/
structure Shares (st st' : State) : Prop where
  skills : st'.skills = st.skills
  tools : st'.tools = st.tools
  calls : st'.calls = st.calls
  results : st'.results = st.results
  todos : st'.todos = st.todos

theorem Shares.refl (st : State) : Shares st st := ⟨rfl, rfl, rfl, rfl, rfl⟩

theorem Shares.trans {st₁ st₂ st₃ : State} (h : Shares st₁ st₂) (h' : Shares st₂ st₃) :
    Shares st₁ st₃ where
  skills := h'.skills.trans h.skills
  tools := h'.tools.trans h.tools
  calls := h'.calls.trans h.calls
  results := h'.results.trans h.results
  todos := h'.todos.trans h.todos

theorem shares_foldl {α : Type} {f : State → α → State} (hf : ∀ st a, Shares st (f st a)) :
    ∀ (l : List α) (st : State), Shares st (l.foldl f st)
  | [], st => .refl st
  | a :: l, st => (hf st a).trans (shares_foldl hf l (f st a))

theorem file_shares (st : State) (call : FileCall) : Shares st (file project st call) := by
  unfold file
  split
  · exact .refl st
  dsimp only
  split_ifs <;> exact ⟨rfl, rfl, rfl, rfl, rfl⟩

theorem link_shares (st : State) (value title : List Char) :
    Shares st (link parse st value title) := by
  unfold link
  split
  · exact .refl st
  dsimp only
  split_ifs
  · exact ⟨rfl, rfl, rfl, rfl, rfl⟩
  · exact .refl st

theorem take_shares (st : State) : ∀ find : Found, Shares st (take parse project st find)
  | .link value title => link_shares st value title
  | .file call => file_shares st call

theorem scan_shares (st : State) (body : List Char) (user : Bool) :
    Shares st (scan parse project st body user) := by
  unfold scan
  split
  · exact (shares_foldl (fun st _ => file_shares st _) _ st).trans (shares_foldl take_shares _ _)
  · exact shares_foldl take_shares _ st

/-- A snapshot leaves nothing behind. -/
theorem snapshot_keeps (c : Collector) (includePending : Bool) :
    (c.snapshot parse includePending).2 = c := by
  unfold Collector.snapshot
  split
  · rfl
  · obtain ⟨hskills, htools, hcalls, hresults, htodos⟩ :=
      @scan_shares parse c.project c.state c.body (c.bodyKind = .user)
    dsimp only
    rw [hskills, htools, hcalls, hresults, htodos]

end shared

namespace Reader

/-- The collector of these events, from the first one on. -/
def collect (parse : String → Option Resources.Url) (project : Option String)
    (events : List EventKind) : Collector :=
  events.foldl (Collector.append parse) { project }

/-- What a reader keeps is what its events make. -/
def Kept (parse : String → Option Resources.Url) (heap : ℕ → Event) (r : Reader) : Prop :=
  ∀ scope, r.context = some scope →
    r.model = collect parse scope.2 (r.previous.map fun i => (heap i).event)

theorem kept_new : Kept parse heap {} := fun _ h => by cases h

/-- A reader that resumes has the first of the events, and what they make. -/
theorem resume_spec (h : Kept parse heap r) :
    (r.resume heap call).context = some (call.sessionId, call.projectPath) ∧
      (r.resume heap call).previous <+: ordered heap call ∧ Kept parse heap (r.resume heap call) := by
  unfold resume
  split
  · refine ⟨rfl, List.nil_prefix, fun scope hscope => ?_⟩
    obtain rfl := Option.some.inj hscope
    rfl
  · rename_i hkeep
    obtain ⟨hcontext, hprefix⟩ := not_or.1 hkeep
    refine ⟨not_not.1 hcontext, ?_, h⟩
    rw [Bool.not_eq_false, List.isPrefixOf_iff_prefix] at hprefix
    exact hprefix

/-- A call shows what the events make, and the reader keeps it. -/
theorem read_spec (h : Kept parse heap r) :
    (r.read parse heap call).1 = ((collect parse call.projectPath
        ((ordered heap call).map fun i => (heap i).event)).snapshot parse call.includePending).1 ∧
      Kept parse heap (r.read parse heap call).2 := by
  obtain ⟨hcontext, ⟨rest, hrest⟩, hkept⟩ := @resume_spec parse heap r call h
  have hmodel : ((ordered heap call).drop (r.resume heap call).previous.length).foldl
      (fun model i => model.append parse (heap i).event) (r.resume heap call).model =
      collect parse call.projectPath ((ordered heap call).map fun i => (heap i).event) := by
    rw [hkept _ hcontext, ← hrest, List.drop_left, List.map_append, collect, collect, List.foldl_append,
      List.foldl_map (l := rest)]
  unfold read
  dsimp only
  rw [hmodel]
  refine ⟨rfl, fun scope hscope => ?_⟩
  obtain rfl := Option.some.inj (hcontext.symm.trans hscope)
  exact snapshot_keeps _ _

theorem readAll_eq : ∀ (calls : List Call) {r : Reader}, Kept parse heap r →
    r.readAll parse heap calls = calls.map fun call => (({} : Reader).read parse heap call).1
  | [], _, _ => rfl
  | call :: calls, r, h => by
    obtain ⟨hshown, hkept⟩ := @read_spec parse heap r call h
    rw [readAll, readAll_eq calls hkept, List.map_cons, hshown, (read_spec kept_new).1]

end Reader

section texts

/-- Events with the texts that stand side by side in one. -/
def coalesce : List EventKind → List EventKind
  | [] => []
  | .text a :: rest =>
    match coalesce rest with
    | .text b :: more => .text (a ++ b) :: more
    | events => .text a :: events
  | e :: rest => e :: coalesce rest

/-- A text goes on where it was cut. -/
theorem append_text (c : Collector) (a b : String) :
    (c.append parse (.text a)).append parse (.text b) = c.append parse (.text (a ++ b)) := by
  simp [Collector.append, Collector.say]

theorem foldl_coalesce : ∀ (events : List EventKind) (c : Collector),
    (coalesce events).foldl (Collector.append parse) c = events.foldl (Collector.append parse) c
  | [], _ => rfl
  | e :: rest, c => by
    have ih := foldl_coalesce rest (c.append parse e)
    cases e with
    | text a =>
      rw [coalesce]
      split
      · rename_i b more hrest
        rw [hrest] at ih
        rw [List.foldl_cons, List.foldl_cons, ← ih, List.foldl_cons, append_text]
      · rw [List.foldl_cons, List.foldl_cons, ih]
    | _ => exact ih

end texts

/-- Each call of a reader shows what a new reader shows, and a new reader shows the same of events
that differ in how the texts are cut. -/
theorem readAll_fresh (parse : String → Option Resources.Url) (heap : ℕ → Event) :
    (∀ calls, ({} : Reader).readAll parse heap calls =
        calls.map fun call => (({} : Reader).read parse heap call).1) ∧
      ∀ call call' : Call, call'.projectPath = call.projectPath →
        call'.includePending = call.includePending →
        coalesce ((ordered heap call').map fun i => (heap i).event) =
          coalesce ((ordered heap call).map fun i => (heap i).event) →
        (({} : Reader).read parse heap call').1 = (({} : Reader).read parse heap call).1 := by
  refine ⟨fun calls => Reader.readAll_eq calls Reader.kept_new, fun call call' hproject hpending hsame => ?_⟩
  rw [(Reader.read_spec Reader.kept_new).1, (Reader.read_spec Reader.kept_new).1, hproject, hpending]
  unfold Reader.collect
  rw [← foldl_coalesce, hsame, foldl_coalesce]

/-- An address in one event and in two. -/
def cutAddress (i : ℕ) : Event where
  seq := i
  sessionId := "s"
  atMs := 0
  event := .text (["https://exam", "ple.com", "https://example.com"].getD i "")

theorem readAll_fresh_cut (parse : String → Option Resources.Url) :
    (({} : Reader).read parse cutAddress ⟨[0, 1], some "s", none, true⟩).1 =
      (({} : Reader).read parse cutAddress ⟨[2], some "s", none, true⟩).1 :=
  (readAll_fresh parse cutAddress).2 ⟨[2], some "s", none, true⟩ ⟨[0, 1], some "s", none, true⟩ rfl rfl rfl

end TaskInfo

end LatteWork
