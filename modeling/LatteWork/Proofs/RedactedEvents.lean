import LatteWork.Proofs.ShownTexts

/-!
# What redaction leaves of an event

Redaction rewrites every string of an event's value, its tag and its identifiers among them, and
reads the value back. It is harmless to an event whose tag words, identifiers and object keys say
nothing of the credential.
-/

namespace LatteWork

open Fallible

namespace Json

/-- What is found along a path of keys, a list under a key standing for each of its items. -/
def along : List String → Json → List Json
  | [], v => [v]
  | key :: path, v =>
    match v.get? key with
    | some (.arr items) => items.flatMap (along path)
    | some w => along path w
    | none => []

mutual

/-- The object keys in a value. -/
def keys : Json → List String
  | .arr items => itemKeys items
  | .obj fields => fieldKeys fields
  | _ => []

def itemKeys : List Json → List String
  | [] => []
  | v :: rest => v.keys ++ itemKeys rest

def fieldKeys : List (String × Json) → List String
  | [] => []
  | (k, v) :: rest => k :: v.keys ++ fieldKeys rest

end

section

variable (f : String → String)

theorem mapItems_eq : ∀ items : List Json, mapItems f items = items.map (mapStrings f) := by
  intro items
  induction items with
  | nil => rfl
  | cons _ rest ih => rw [mapItems, ih, List.map_cons]

theorem mapFields_append : ∀ l l' : List (String × Json),
    mapFields f (l ++ l') = mapFields f l ++ mapFields f l'
  | [], _ => rfl
  | (_, _) :: rest, l' => by simp [mapFields, mapFields_append rest l']

theorem lookup_mapFields (key : String) : ∀ fields : List (String × Json),
    (mapFields f fields).lookup key = (fields.lookup key).map (mapStrings f) := by
  intro fields
  induction fields with
  | nil => rfl
  | cons field rest ih =>
    obtain ⟨k, v⟩ := field
    simp only [mapFields, List.lookup_cons]
    cases key == k
    · exact ih
    · rfl

theorem get?_mapStrings (key : String) (v : Json) :
    (v.mapStrings f).get? key = (v.get? key).map (mapStrings f) := by
  cases v <;> simp [mapStrings, get?, lookup_mapFields]

theorem str?_mapStrings (v : Json) : (v.mapStrings f).str? = v.str?.map f := by
  cases v <;> simp [mapStrings, str?]

theorem along_mapStrings : ∀ (path : List String) (v : Json),
    (v.mapStrings f).along path = (v.along path).map (mapStrings f)
  | [], _ => rfl
  | key :: path, v => by
    simp only [along, get?_mapStrings]
    rcases v.get? key with _ | w
    · rfl
    · cases w with
      | arr items =>
        simp [mapStrings, mapItems_eq, List.flatMap_map, List.map_flatMap, along_mapStrings path]
      | _ => exact along_mapStrings path _

mutual

theorem keys_mapStrings : ∀ v : Json, (v.mapStrings f).keys = v.keys
  | .null => rfl
  | .bool _ => rfl
  | .num _ => rfl
  | .str _ => rfl
  | .arr items => by simpa only [mapStrings, keys] using itemKeys_mapItems items
  | .obj fields => by simpa only [mapStrings, keys] using fieldKeys_mapFields fields

theorem itemKeys_mapItems : ∀ items : List Json, itemKeys (mapItems f items) = itemKeys items
  | [] => rfl
  | v :: rest => by simp only [mapItems, itemKeys, keys_mapStrings v, itemKeys_mapItems rest]

theorem fieldKeys_mapFields :
    ∀ fields : List (String × Json), fieldKeys (mapFields f fields) = fieldKeys fields
  | [] => rfl
  | (_, v) :: rest => by
    simp only [mapFields, fieldKeys, keys_mapStrings v, fieldKeys_mapFields rest]

end

@[simp]
theorem mapStrings_obj (fields : List (String × Json)) :
    (obj fields).mapStrings f = obj (mapFields f fields) := rfl

@[simp]
theorem mapStrings_str (t : String) : (str t).mapStrings f = str (f t) := rfl

@[simp]
theorem mapStrings_bool (b : Bool) : (bool b).mapStrings f = bool b := rfl

@[simp]
theorem mapStrings_nat (n : ℕ) : (nat n).mapStrings f = nat n := rfl

@[simp]
theorem mapStrings_f64 (n : ℕ) : (f64 n).mapStrings f = f64 n := rfl

variable {f} {α : Type} {toJson : α → Json} {g : α → α}

/-- How a record is rewritten is how a list of them is, and one that may be missing. -/
theorem mapStrings_list (h : ∀ a, (toJson a).mapStrings f = toJson (g a)) (l : List α) :
    (arr (l.map toJson)).mapStrings f = arr ((l.map g).map toJson) := by
  simp [mapStrings, mapItems_eq, h]

theorem mapStrings_opt (h : ∀ a, (toJson a).mapStrings f = toJson (g a)) (o : Option α) :
    (opt toJson o).mapStrings f = opt toJson (o.map g) := by
  cases o
  · rfl
  · exact h _

theorem mapFields_optField (h : ∀ a, (toJson a).mapStrings f = toJson (g a)) (key : String)
    (o : Option α) : mapFields f (optField key toJson o) = optField key toJson (o.map g) := by
  cases o
  · rfl
  · simp [optField, mapFields, h]

/-- What has no texts is left as it is. -/
theorem mapStrings_opt_self (h : ∀ a, (toJson a).mapStrings f = toJson a) (o : Option α) :
    (opt toJson o).mapStrings f = opt toJson o := by
  simpa using mapStrings_opt (g := id) h o

theorem mapFields_optField_self (h : ∀ a, (toJson a).mapStrings f = toJson a) (key : String)
    (o : Option α) : mapFields f (optField key toJson o) = optField key toJson o := by
  simpa using mapFields_optField (g := id) h key o

end

end Json

namespace EventKind

/-- The words of an event that an enumeration is read from, its tag first. -/
def words (e : EventKind) : List String :=
  e.kind :: match e with
    | turnChanges changes => [changes.undo.asStr]
    | subagent update => (update.status.map SubagentStatus.asStr).toList
    | progress phase => [phase.asStr]
    | state status _ => [status.asStr]
    | _ => []

/-- The fields `id`, `tool_use_id` and `request_id` of an event and of the records in it. -/
def identifiers : EventKind → List String
  | turnChanges changes => [changes.requestId]
  | subagent update => update.id :: update.toolUseId.toList
  | user _ requestId | queuedMessageSent _ requestId => [requestId]
  | tool id _ _ | toolResult id _ _ => [id]
  | question requestId toolUseId questions =>
    toolUseId.toList ++ requestId :: questions.map (·.id)
  | questionResolved requestId _ | approvalResolved requestId _ => [requestId]
  | approval requestId toolUseId _ _ => toolUseId.toList ++ [requestId]
  | progress _ | usage .. | text _ | state .. | notice _ => []

/-- The input of a tool and the content of a result. -/
def values : EventKind → List Json
  | tool _ _ input | approval _ _ _ input => [input]
  | toolResult _ content _ => [content]
  | _ => []

/-- The object keys of tool inputs and results. -/
def keys (e : EventKind) : List String := e.values.flatMap Json.keys

/-- The texts along some paths of an event's value. -/
def textsAlong (paths : List (List String)) (v : Json) : List String :=
  paths.flatMap fun path => (v.along path).filterMap Json.str?

def wordPaths : List (List String) :=
  [["kind"], ["phase"], ["status"], ["update", "status"], ["changes", "undo"]]

def identifierPaths : List (List String) :=
  [["id"], ["tool_use_id"], ["request_id"], ["update", "id"], ["update", "tool_use_id"],
    ["changes", "request_id"], ["questions", "id"]]

theorem words_along (e : EventKind) : e.words = textsAlong wordPaths e.toJson := by
  cases e with
  | subagent update =>
    obtain ⟨_, _, _, agentType, status, _, _⟩ := update
    cases agentType <;> cases status <;> rfl
  | approval _ toolUseId _ _ => cases toolUseId <;> rfl
  | _ => rfl

theorem identifiers_along (e : EventKind) :
    e.identifiers = textsAlong identifierPaths e.toJson := by
  cases e with
  | subagent update =>
    obtain ⟨_, toolUseId, _, _, _, _, _⟩ := update
    cases toolUseId <;> rfl
  | question requestId toolUseId questions =>
    have hids : ((questions.map UserQuestion.toJson).flatMap (Json.along ["id"])).filterMap
        Json.str? = questions.map (·.id) := by
      induction questions with
      | nil => rfl
      | cons q rest ih =>
        rw [List.map_cons, List.flatMap_cons, List.filterMap_append, ih]
        rfl
    have hlist : ((toJson (question requestId toolUseId questions)).along
        ["questions", "id"]).filterMap Json.str? = questions.map (·.id) := hids
    cases toolUseId <;>
      simp only [textsAlong, identifierPaths, List.flatMap_cons, List.flatMap_nil, hlist,
        List.append_nil] <;> rfl
  | approval _ toolUseId _ _ => cases toolUseId <;> rfl
  | _ => rfl

theorem values_get (e : EventKind) : e.values = ["input", "content"].filterMap e.toJson.get? := by
  cases e with
  | approval _ toolUseId _ _ => cases toolUseId <;> rfl
  | _ => rfl

variable {r e : EventKind} {f : String → String}

theorem textsAlong_mapStrings (f : String → String) (paths : List (List String)) (v : Json) :
    textsAlong paths (v.mapStrings f) = (textsAlong paths v).map f := by
  simp [textsAlong, Json.along_mapStrings, List.map_flatMap, List.filterMap_map, List.map_filterMap,
    Json.str?_mapStrings]

/-- What an event says whose value is another's with its strings rewritten. -/
theorem words_rewritten (h : r.toJson = e.toJson.mapStrings f) : r.words = e.words.map f := by
  rw [words_along, words_along, h, textsAlong_mapStrings]

theorem identifiers_rewritten (h : r.toJson = e.toJson.mapStrings f) :
    r.identifiers = e.identifiers.map f := by
  rw [identifiers_along, identifiers_along, h, textsAlong_mapStrings]

theorem keys_rewritten (h : r.toJson = e.toJson.mapStrings f) : r.keys = e.keys := by
  unfold keys
  rw [values_get, values_get, h]
  simp only [List.filterMap_cons, List.filterMap_nil, Json.get?_mapStrings]
  cases e.toJson.get? "input" <;> cases e.toJson.get? "content" <;> simp [Json.keys_mapStrings]

/-- No word of an enumeration has the marker's first letter. -/
theorem words_plain (e : EventKind) : ∀ w ∈ e.words, '[' ∉ w.toList := by
  intro w hw
  rcases List.mem_cons.1 hw with rfl | hw
  · exact e.kind_unmarked
  cases e with
  | turnChanges changes =>
    obtain rfl := List.mem_singleton.1 hw
    cases changes.undo <;> decide
  | subagent update =>
    obtain ⟨status, -, rfl⟩ := Option.map_eq_some_iff.1 (Option.mem_toList.1 hw)
    cases status <;> decide
  | progress phase =>
    obtain rfl := List.mem_singleton.1 hw
    cases phase <;> decide
  | state status message =>
    obtain rfl := List.mem_singleton.1 hw
    cases status <;> decide
  | _ => exact absurd hw List.not_mem_nil

end EventKind

section Rewriting

variable (f : String → String)

def TaskChange.mapTexts (c : TaskChange) : TaskChange :=
  { c with path := f c.path, status := f c.status }

def ChangeSummary.mapTexts (s : ChangeSummary) : ChangeSummary :=
  { s with entries := s.entries.map (·.mapTexts f), unavailable := s.unavailable.map f }

def TurnChanges.mapTexts (c : TurnChanges) : TurnChanges :=
  { c with requestId := f c.requestId, summary := c.summary.mapTexts f }

def SubagentUpdate.mapTexts (u : SubagentUpdate) : SubagentUpdate :=
  { u with
    id := f u.id, toolUseId := u.toolUseId.map f, title := u.title.map f
    agentType := u.agentType.map f, summary := u.summary.map f, lastTool := u.lastTool.map f }

def UserQuestion.mapTexts (q : UserQuestion) : UserQuestion :=
  { q with
    id := f q.id, header := f q.header, text := f q.text
    options := q.options.map fun o => { label := f o.label, description := f o.description } }

def QuestionAnswer.mapTexts (a : QuestionAnswer) : QuestionAnswer :=
  { a with questionId := f a.questionId, text := a.text.map f }

/-- An event with its texts rewritten, the words of its enumerations left alone. -/
def EventKind.mapTexts : EventKind → EventKind
  | turnChanges changes => turnChanges (changes.mapTexts f)
  | subagent update => subagent (update.mapTexts f)
  | progress phase => progress phase
  | usage context totals => usage (context.map fun c => { c with model := f c.model }) totals
  | user t requestId => user (f t) (f requestId)
  | queuedMessageSent t requestId => queuedMessageSent (f t) (f requestId)
  | text t => text (f t)
  | tool id name input => tool (f id) (f name) (input.mapStrings f)
  | toolResult id content isError => toolResult (f id) (content.mapStrings f) isError
  | question requestId toolUseId questions =>
    question (f requestId) (toolUseId.map f) (questions.map (·.mapTexts f))
  | questionResolved requestId answers =>
    questionResolved (f requestId) (answers.map (·.map (·.mapTexts f)))
  | approval requestId toolUseId name input =>
    approval (f requestId) (toolUseId.map f) (f name) (input.mapStrings f)
  | approvalResolved requestId allow => approvalResolved (f requestId) allow
  | state status message => state status (message.map f)
  | notice t => notice (f t)

theorem TaskChange.toJson_mapTexts (c : TaskChange) :
    c.toJson.mapStrings f = (c.mapTexts f).toJson := by
  simp [toJson, mapTexts, Json.mapFields, Json.mapStrings_opt_self (Json.mapStrings_nat f)]

theorem ChangeSummary.toJson_mapTexts (s : ChangeSummary) :
    s.toJson.mapStrings f = (s.mapTexts f).toJson := by
  simp [toJson, mapTexts, Json.mapFields, Json.mapFields_append,
    Json.mapStrings_opt_self (Json.mapStrings_f64 f),
    Json.mapFields_optField_self (Json.mapStrings_nat f),
    Json.mapStrings_list (TaskChange.toJson_mapTexts f), Json.mapStrings_opt (Json.mapStrings_str f)]

theorem ContextUsage.toJson_mapTexts (u : ContextUsage) :
    u.toJson.mapStrings f = toJson { u with model := f u.model } := by
  simp [toJson, Json.mapFields, Json.mapStrings_opt_self (Json.mapStrings_f64 f)]

theorem UserQuestion.toJson_mapTexts (q : UserQuestion) :
    q.toJson.mapStrings f = (q.mapTexts f).toJson := by
  have hoption (o : QuestionOption) : o.toJson.mapStrings f =
      QuestionOption.toJson { label := f o.label, description := f o.description } := rfl
  simp [toJson, mapTexts, Json.mapFields, Json.mapStrings_list hoption]

theorem QuestionAnswer.toJson_mapTexts (a : QuestionAnswer) :
    a.toJson.mapStrings f = (a.mapTexts f).toJson := by
  have hindices := Json.mapStrings_list (g := id) (Json.mapStrings_nat f) a.optionIndices
  rw [List.map_id] at hindices
  simp [toJson, mapTexts, Json.mapFields, hindices, Json.mapStrings_opt (Json.mapStrings_str f)]

theorem SubagentUpdate.toJson_mapTexts {u : SubagentUpdate}
    (h : ∀ status ∈ u.status, f status.asStr = status.asStr) :
    u.toJson.mapStrings f = (u.mapTexts f).toJson := by
  have hstatus : (Json.opt (.str ∘ SubagentStatus.asStr) u.status).mapStrings f =
      .opt (.str ∘ SubagentStatus.asStr) u.status := by
    cases hs : u.status with
    | none => rfl
    | some status => simp [Json.opt, h status hs]
  simp [toJson, mapTexts, Json.mapFields, Json.mapFields_append, hstatus,
    Json.mapStrings_opt (Json.mapStrings_str f), Json.mapFields_optField (Json.mapStrings_str f)]

theorem TurnUsage.toJson_mapTexts (u : TurnUsage) : u.toJson.mapStrings f = u.toJson := by
  simp [toJson, Json.mapFields, Json.mapStrings_opt_self (Json.mapStrings_f64 f)]

/-- Rewriting every string of an event's value is rewriting its texts, if the words of its
enumerations come out as they are. -/
theorem EventKind.toJson_mapTexts {e : EventKind} (h : ∀ w ∈ e.words, f w = w) :
    (e.mapTexts f).toJson = e.toJson.mapStrings f := by
  have hkind : f e.kind = e.kind := h _ List.mem_cons_self
  have hopt := Json.mapStrings_opt (Json.mapStrings_str f)
  suffices hfields : (e.mapTexts f).fields = Json.mapFields f e.fields by
    have hsame : (e.mapTexts f).kind = e.kind := by cases e <;> rfl
    simp [EventKind.toJson, Json.mapFields, hsame, hfields, hkind]
  cases e with
  | turnChanges changes =>
    have hundo : f changes.undo.asStr = changes.undo.asStr := h _ (by simp [words])
    simp [fields, mapTexts, TurnChanges.toJson, TurnChanges.mapTexts, Json.mapFields, hundo,
      ChangeSummary.toJson_mapTexts]
  | subagent update =>
    have hupdate := SubagentUpdate.toJson_mapTexts f (u := update) fun status hs =>
      h _ (by simp [words, Option.mem_def.1 hs])
    simp [fields, mapTexts, Json.mapFields, hupdate]
  | progress phase =>
    simp [fields, mapTexts, Json.mapFields, h phase.asStr (by simp [words])]
  | usage context totals =>
    simp [fields, mapTexts, Json.mapFields, Json.mapStrings_opt (ContextUsage.toJson_mapTexts f),
      Json.mapStrings_opt_self (TurnUsage.toJson_mapTexts f)]
  | question requestId toolUseId questions =>
    simp [fields, mapTexts, Json.mapFields, hopt, Json.mapStrings_list (UserQuestion.toJson_mapTexts f)]
  | questionResolved requestId answers =>
    have hanswers := Json.mapStrings_opt
      (Json.mapStrings_list (QuestionAnswer.toJson_mapTexts f)) answers
    simp [fields, mapTexts, Json.mapFields, hanswers]
  | approval requestId toolUseId name input =>
    simp [fields, mapTexts, Json.mapFields, Json.mapFields_append,
      Json.mapFields_optField (Json.mapStrings_str f)]
  | state status message =>
    simp [fields, mapTexts, Json.mapFields, hopt, h status.asStr (by simp [words])]
  | _ => simp [fields, mapTexts, Json.mapFields]

end Rewriting

section Replacing

variable {p m : List Char}

/-- `replaceChars` with a mark at what it puts in. -/
def replaceMarked (pattern replacement : List Char) : ℕ → List Char → List (Char × Bool)
  | _, [] => []
  | n + 1, _ :: rest => replaceMarked pattern replacement n rest
  | 0, c :: rest =>
    if pattern <+: c :: rest then
      replacement.map (·, true) ++ replaceMarked pattern replacement (pattern.length - 1) rest
    else (c, false) :: replaceMarked pattern replacement 0 rest

theorem replaceMarked_fst : ∀ (t : List Char) (n : ℕ),
    (replaceMarked p m n t).map Prod.fst = replaceChars p m n t
  | [], _ => by simp [replaceMarked, replaceChars]
  | _ :: rest, n + 1 => by simpa [replaceMarked, replaceChars] using replaceMarked_fst rest n
  | c :: rest, 0 => by
    simp only [replaceMarked, replaceChars]
    split
    · simp [replaceMarked_fst rest, Function.comp_def]
    · simp [replaceMarked_fst rest]

/-- Up to the first mark, what is there is what was. -/
theorem unmarked_front (hm : m ≠ []) : ∀ (t : List Char) (u : List (Char × Bool)),
    u <+: replaceMarked p m 0 t → (∀ x ∈ u, x.2 = false) → u.map Prod.fst <+: t
  | _, [], _, _ => List.nil_prefix
  | [], x :: u, hu, _ => by simp [replaceMarked] at hu
  | c :: rest, x :: u, hu, hplain => by
    rw [replaceMarked] at hu
    split at hu
    · obtain ⟨d, m', rfl⟩ := List.exists_cons_of_ne_nil hm
      simp only [List.map_cons, List.cons_append, List.cons_prefix_cons] at hu
      have hx := hplain x List.mem_cons_self
      simp [hu.1] at hx
    · obtain ⟨rfl, hrest⟩ := List.cons_prefix_cons.1 hu
      rw [List.map_cons, List.cons_prefix_cons]
      exact ⟨rfl, unmarked_front hm rest u hrest fun y hy => hplain y (List.mem_cons_of_mem _ hy)⟩

/-- Each occurrence that is left has something of what was put in. -/
theorem marked_within (hp : p ≠ []) (hm : m ≠ []) : ∀ (t : List Char) (n : ℕ)
    {u : List (Char × Bool)}, u <:+: replaceMarked p m n t → u.map Prod.fst = p →
      ∃ x ∈ u, x.2 = true
  | [], n, u, hu, hmap => by
    obtain rfl : u = [] := by simpa [replaceMarked] using hu
    exact absurd hmap.symm hp
  | _ :: rest, n + 1, u, hu, hmap => by
    rw [replaceMarked] at hu
    exact marked_within hp hm rest n hu hmap
  | c :: rest, 0, u, hu, hmap => by
    have hu0 : u ≠ [] := fun h => hp (by simpa [h] using hmap.symm)
    by_cases hfound : p <+: c :: rest
    · rw [replaceMarked, if_pos hfound, Occurrence.infix_append] at hu
      have hmark : ∀ x ∈ m.map (·, true), x.2 = true := by simp
      rcases hu with hu | hu | hu
      · obtain ⟨x, hx⟩ := List.exists_mem_of_ne_nil u hu0
        exact ⟨x, hx, hmark x (hu.subset hx)⟩
      · exact marked_within hp hm rest _ hu hmap
      · obtain ⟨v, w, hv, -, rfl, hsuffix, -⟩ := hu.parts
        obtain ⟨x, hx⟩ := List.exists_mem_of_ne_nil v hv
        exact ⟨x, List.mem_append_left _ hx, hmark x (hsuffix.subset hx)⟩
    · by_contra hnone
      have hplain : ∀ x ∈ u, x.2 = false := fun x hx => by
        by_contra hx'
        exact hnone ⟨x, hx, by simpa using hx'⟩
      rw [replaceMarked, if_neg hfound, List.infix_cons_iff] at hu
      rcases hu with hu | hu
      · have hfront : u <+: replaceMarked p m 0 (c :: rest) := by
          rwa [replaceMarked, if_neg hfound]
        have hword := unmarked_front hm (c :: rest) u hfront hplain
        rw [hmap] at hword
        exact hfound hword
      · exact hnone (marked_within hp hm rest 0 hu hmap)

theorem replaceChars_skip : ∀ (l b : List Char),
    replaceChars p m l.length (l ++ b) = replaceChars p m 0 b
  | [], _ => rfl
  | _ :: l, b => by simpa [replaceChars] using replaceChars_skip l b

/-- The first occurrence is replaced, and what is behind it is gone through anew. -/
theorem replace_first (hp : p ≠ []) : ∀ t : List Char, p <:+: t →
    ∃ a b, t = a ++ p ++ b ∧ replaceChars p m 0 t = a ++ m ++ replaceChars p m 0 b
  | [], h => absurd (List.infix_nil.1 h) hp
  | c :: rest, h => by
    by_cases hfound : p <+: c :: rest
    · obtain ⟨b, hb⟩ := hfound
      obtain ⟨d, p', rfl⟩ := List.exists_cons_of_ne_nil hp
      obtain ⟨rfl, rfl⟩ := List.cons.inj hb
      refine ⟨[], b, by simp, ?_⟩
      rw [replaceChars, if_pos ⟨b, by simp⟩]
      simp [replaceChars_skip]
    · obtain ⟨a, b, rfl, hrest⟩ := replace_first hp rest
        ((List.infix_cons_iff.1 h).resolve_left hfound)
      exact ⟨c :: a, b, by simp, by rw [replaceChars, if_neg hfound, hrest]; simp⟩

theorem replace_none : ∀ t : List Char, ¬p <:+: t → replaceChars p m 0 t = t
  | [], _ => rfl
  | c :: rest, h => by
    rw [List.infix_cons_iff, not_or] at h
    rw [replaceChars, if_neg h.1, replace_none rest h.2]

theorem replace_length (hp : p ≠ []) (t : List Char) :
    ∃ k, (replaceChars p m 0 t).length + k * p.length = t.length + k * m.length := by
  induction h : t.length using Nat.strong_induction_on generalizing t with
  | _ n ih =>
    by_cases hin : p <:+: t
    · obtain ⟨a, b, rfl, hb⟩ := replace_first (m := m) hp t hin
      have hpos := List.length_pos_iff.2 hp
      simp only [List.length_append] at h
      obtain ⟨k, hk⟩ := ih b.length (by omega) b rfl
      refine ⟨k + 1, ?_⟩
      rw [hb]
      simp only [List.length_append, Nat.succ_mul]
      omega
    · exact ⟨0, by simp [replace_none t hin, h]⟩

/-- A text that is left as it is has the pattern only when that is what is put in. -/
theorem replace_eq_self (hp : p ≠ []) {t : List Char} (h : replaceChars p m 0 t = t)
    (hin : p <:+: t) : p = m := by
  obtain ⟨a, b, rfl, hb⟩ := replace_first (m := m) hp t hin
  rw [hb, List.append_assoc, List.append_assoc, List.append_cancel_left_eq] at h
  have hlen := congrArg List.length h
  obtain ⟨k, hk⟩ := replace_length (m := m) hp b
  simp only [List.length_append] at hlen
  have hsame : (k + 1) * m.length = (k + 1) * p.length := by
    rw [Nat.succ_mul, Nat.succ_mul]
    omega
  exact (List.append_inj h (Nat.eq_of_mul_eq_mul_left (by omega) hsame)).1.symm

theorem replace_with_itself (hp : p ≠ []) (t : List Char) : replaceChars p p 0 t = t := by
  induction h : t.length using Nat.strong_induction_on generalizing t with
  | _ n ih =>
    by_cases hin : p <:+: t
    · obtain ⟨a, b, rfl, hb⟩ := replace_first (m := p) hp t hin
      have hpos := List.length_pos_iff.2 hp
      simp only [List.length_append] at h
      rw [hb, ih b.length (by omega) b rfl]
    · exact replace_none t hin

end Replacing

/-- The credential of a launch; empty where there is none. -/
def LaunchConfig.credential (c : LaunchConfig) : String :=
  match c.provider with
  | some p => p.credential
  | none => ""

/-- `t` is the text `s` redacted, and each occurrence of the credential in it lies over something
of a marker that was put in. -/
def Redaction (credential s t : String) : Prop :=
  t.toList = (replaceMarked credential.toList marker 0 s.toList).map Prod.fst ∧
    ∀ u, u <:+: replaceMarked credential.toList marker 0 s.toList →
      u.map Prod.fst = credential.toList → ∃ x ∈ u, x.2 = true

/-- `serde_json::from_value` on the value redaction makes of an event: it takes the value of an
event for what is written there, and nothing else for an event. -/
structure ReadsRedacted (fromValue : Json → Option EventKind) (config : LaunchConfig)
    (e : EventKind) : Prop where
  exact : ∀ r, fromValue (e.toJson.mapStrings config.redact) = some r →
    r.toJson = e.toJson.mapStrings config.redact
  taken : ∀ r : EventKind, r.toJson = e.toJson.mapStrings config.redact →
    (fromValue (e.toJson.mapStrings config.redact)).isSome

/-- Redaction takes the event and gives one of the same kind with the same identifiers, and no
string or object key of it says the credential otherwise than over a marker. -/
def Harmless (fromValue : Json → Option EventKind) (config : LaunchConfig) (e : EventKind) : Prop :=
  ∃ r, config.redactAny fromValue e = .ok r ∧ r.kind = e.kind ∧ r.identifiers = e.identifiers ∧
    (config.credential ≠ "" →
      List.Forall₂ (Redaction config.credential) e.toJson.strings r.toJson.strings ∧
      ∀ key ∈ r.keys, ¬config.credential.toList <:+: key.toList)

/-- The words, identifiers and object keys of the event say nothing of the credential. An
identifier may, where the credential is the marker itself. -/
def Spared (credential : String) (e : EventKind) : Prop :=
  credential = "" ∨
    (∀ w ∈ e.words, ¬credential.toList <:+: w.toList) ∧
    (credential = "[redacted]" ∨ ∀ i ∈ e.identifiers, ¬credential.toList <:+: i.toList) ∧
    ∀ key ∈ e.keys, ¬credential.toList <:+: key.toList

namespace LaunchConfig

variable {config : LaunchConfig}

theorem redact_plain (h : config.credential = "") (text : String) : config.redact text = text := by
  unfold LaunchConfig.credential at h
  unfold LaunchConfig.redact
  cases hprovider : config.provider with
  | none => rfl
  | some p =>
    rw [hprovider] at h
    exact if_pos h

theorem redact_toList (h : config.credential ≠ "") (text : String) :
    (config.redact text).toList =
      replaceChars config.credential.toList marker 0 text.toList := by
  unfold LaunchConfig.credential at h ⊢
  unfold LaunchConfig.redact
  cases hprovider : config.provider with
  | none =>
    rw [hprovider] at h
    exact absurd rfl h
  | some p =>
    rw [hprovider] at h
    dsimp only at h ⊢
    rw [if_neg h, String.toList_ofList, marker_eq]

theorem redact_redaction (h : config.credential ≠ "") (text : String) :
    Redaction config.credential text (config.redact text) := by
  have hp : config.credential.toList ≠ [] := fun hnil => h (String.toList_eq_nil_iff.1 hnil)
  refine ⟨by rw [redact_toList h, replaceMarked_fst], fun u hu hmap => ?_⟩
  exact marked_within hp (by decide) _ 0 hu hmap

end LaunchConfig

section

variable {fromValue : Json → Option EventKind} {config : LaunchConfig} {e : EventKind}

theorem spared_words (h : Spared config.credential e) : ∀ w ∈ e.words, config.redact w = w := by
  intro w hw
  rcases h with h | ⟨hwords, -, -⟩
  · exact LaunchConfig.redact_plain h w
  · by_cases hc : config.credential = ""
    · exact LaunchConfig.redact_plain hc w
    · rw [← String.toList_inj, LaunchConfig.redact_toList hc, replace_none _ (hwords w hw)]

theorem spared_identifiers (h : Spared config.credential e) :
    ∀ i ∈ e.identifiers, config.redact i = i := by
  intro i hi
  by_cases hc : config.credential = ""
  · exact LaunchConfig.redact_plain hc i
  rw [← String.toList_inj, LaunchConfig.redact_toList hc]
  rcases h with h | ⟨-, h | hids, -⟩
  · exact absurd h hc
  · rw [h, marker_eq]
    exact replace_with_itself (by decide) _
  · exact replace_none _ (hids i hi)

/-- Redaction is harmless to an event just when its words, identifiers and object keys say nothing
of the credential. -/
theorem harmless_iff_spared (hread : ReadsRedacted fromValue config e) :
    Harmless fromValue config e ↔ Spared config.credential e := by
  constructor
  · rintro ⟨r, hr, -, hids, hclear⟩
    by_cases hc : config.credential = ""
    · exact .inl hc
    have hp : config.credential.toList ≠ [] := fun h => hc (String.toList_eq_nil_iff.1 h)
    have hjson := hread.exact r (orError_eq_ok.1 hr)
    obtain ⟨-, hkeys⟩ := hclear hc
    refine .inr ⟨fun w hw hin => ?_, ?_, EventKind.keys_rewritten hjson ▸ hkeys⟩
    · -- a word that changed shows the marker, and no event has such a word
      have hplain : '[' ∉ (config.redact w).toList :=
        r.words_plain _ (EventKind.words_rewritten hjson ▸ List.mem_map_of_mem hw)
      obtain ⟨a, b, -, hword⟩ := replace_first (m := marker) hp _ hin
      rw [LaunchConfig.redact_toList hc, hword] at hplain
      exact hplain (by simp [marker])
    · rw [EventKind.identifiers_rewritten hjson] at hids
      by_cases hmark : config.credential = "[redacted]"
      · exact .inl hmark
      refine .inr fun i hi hin => hmark (String.toList_inj.1 ?_)
      have hsame : config.redact i = i :=
        List.map_inj_left.1 (hids.trans (List.map_id _).symm) i hi
      rw [← String.toList_inj, LaunchConfig.redact_toList hc] at hsame
      exact replace_eq_self hp hsame hin
  · intro h
    have htaken := hread.taken (e.mapTexts config.redact)
      (EventKind.toJson_mapTexts config.redact (spared_words h))
    obtain ⟨r, hr⟩ := Option.isSome_iff_exists.1 htaken
    have hjson := hread.exact r hr
    have hwords : r.words = e.words := by
      rw [EventKind.words_rewritten hjson, List.map_congr_left (spared_words h), List.map_id']
    have hids : r.identifiers = e.identifiers := by
      rw [EventKind.identifiers_rewritten hjson, List.map_congr_left (spared_identifiers h),
        List.map_id']
    refine ⟨r, orError_eq_ok.2 hr, (List.cons.inj hwords).1, hids, fun hc => ⟨?_, ?_⟩⟩
    · rw [hjson, Json.strings_mapStrings, List.forall₂_map_right_iff, List.forall₂_same]
      exact fun text _ => LaunchConfig.redact_redaction hc text
    · rw [EventKind.keys_rewritten hjson]
      exact (h.resolve_left hc).2.2

end

/-- What `serde_json::from_value` makes of a text and of a tool. -/
def readEvent (v : Json) : Option EventKind :=
  match (v.get? "kind").bind Json.str? with
  | some "text" => ((v.get? "text").bind Json.str?).map .text
  | some "tool" => do
    let id ← (v.get? "id").bind Json.str?
    let name ← (v.get? "name").bind Json.str?
    let input ← v.get? "input"
    some (.tool id name input)
  | _ => none

/-- A launch whose provider has this credential. -/
def launchWith (credential : String) : LaunchConfig :=
  { provider := some
      { metadata :=
          { id := "p", name := "P", protocol := .anthropicMessages, baseUrl := "https://h"
            model := "m", models := [], modelLabels := [], models1m := [], auth := .bearer }
        credential := credential } }

def anyUrl (_ : String) : Option Url :=
  some { scheme := "https", host := some "h", username := "", password := none, query := none
         fragment := none }

/-- Three credentials that a provider may have: one a tag word says, one an identifier and one
an object key. -/
theorem redaction_harms :
    (∀ c ∈ ["text", "call", "path"], ∀ p ∈ (launchWith c).provider,
      validateProvider anyUrl p.metadata p.credential = .ok ()) ∧
    ¬Harmless readEvent (launchWith "text") (.text "hi") ∧
    ¬Harmless readEvent (launchWith "call") (.tool "call1" "Read" (.obj [])) ∧
    ¬Harmless readEvent (launchWith "path") (.tool "1" "Read" (.obj [("path", .str "a")])) := by
  refine ⟨?_, ?_, ?_, ?_⟩
  · intro c hc p hp
    obtain rfl := Option.some.inj hp
    revert c
    decide +kernel
  · rintro ⟨r, hr, -⟩
    cases hr
  · rintro ⟨r, hr, -, hids, -⟩
    have hsame : some (EventKind.tool "[redacted]1" "Read" (.obj [])) = some r :=
      orError_eq_ok.1 hr
    obtain rfl := Option.some.inj hsame
    exact absurd hids (by decide)
  · rintro ⟨r, hr, -, -, hclear⟩
    have hsame : some (EventKind.tool "1" "Read" (.obj [("path", .str "a")])) = some r :=
      orError_eq_ok.1 hr
    obtain rfl := Option.some.inj hsame
    exact (hclear (by decide)).2 "path" (by decide) (by decide)

theorem tool_harmless :
    Harmless readEvent (launchWith "sk-9") (.tool "1" "Read" (.obj [("path", .str "sk-9/a")])) := by
  refine (harmless_iff_spared ⟨fun r hr => ?_, fun r _ => rfl⟩).2 (.inr ⟨?_, .inr ?_, ?_⟩)
  · have hsame : some (EventKind.tool "1" "Read" (.obj [("path", .str "[redacted]/a")])) = some r := hr
    obtain rfl := Option.some.inj hsame
    rfl
  · decide +kernel
  · decide +kernel
  · decide +kernel

end LatteWork
