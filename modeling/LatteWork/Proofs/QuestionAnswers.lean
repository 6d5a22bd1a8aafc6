import LatteWork.Agents.Claude
import LatteWork.Agents.Traex

/-!
# Valid answers can be written

The answers that the validation lets pass choose options that there are and leave no question out:
both adapters write for every question the labels of the chosen options, and then the free text.
-/

namespace LatteWork

open Assoc Fallible

/-- The labels of the options an answer chooses, in order. All of them are there. -/
def Chooses (question : UserQuestion) (answer : QuestionAnswer) (labels : List String) : Prop :=
  (answer.optionIndices.map fun i => question.options[i]?.map (·.label)) = labels.map some

/-- A response has one entry for each question: the labels of the chosen options in order, and then
the free text. -/
structure Encodes (questions : List UserQuestion) (answers : List QuestionAnswer)
    (key : UserQuestion → String) (free : String → String) (value : List String → Json)
    (fields : List (String × Json)) : Prop where
  keys : (fields.map (·.1)).Perm (questions.map key)
  nodup : (fields.map (·.1)).Nodup
  entry : ∀ question ∈ questions, ∃ answer ∈ answers,
    (∀ other ∈ answers, other.questionId = question.id ↔ other = answer) ∧
    ∃ labels, Chooses question answer labels ∧
      (key question, value (labels ++ ((answer.text.filter (!blank ·)).map free).toList)) ∈ fields

variable {questions : List UserQuestion} {answers : List QuestionAnswer}

/-! ### Validation -/

/-- What the validation makes sure of: every answer is for a question that is not answered yet, and
chooses options that there are. -/
theorem validateAnswers_ok : ∀ {answers : List QuestionAnswer} {seen : List String},
    validateAnswers questions seen answers = .ok () →
    (answers.map (·.questionId)).Nodup ∧ (∀ a ∈ answers, a.questionId ∉ seen) ∧
    ∀ a ∈ answers, ∃ question, questions.find? (·.id = a.questionId) = some question ∧
      ∀ i ∈ a.optionIndices, i < question.options.length
  | [], _, _ => by simp
  | answer :: rest, seen, h => by
    simp only [validateAnswers, bind_eq_ok, orError_eq_ok, bailIf_eq_ok] at h
    obtain ⟨question, hfind, _, hseen, _, hanswer, hrest⟩ := h
    simp only [validateAnswer, bind_eq_ok, orError_eq_ok, bailIf_eq_ok, hfind,
      Option.some.injEq] at hanswer
    obtain ⟨_, rfl, _, hrange, -⟩ := hanswer
    obtain ⟨hnodup, hfresh, hall⟩ := validateAnswers_ok hrest
    refine ⟨?_, ?_, ?_⟩
    · rw [List.map_cons, List.nodup_cons]
      refine ⟨fun hmem => ?_, hnodup⟩
      obtain ⟨a, ha, hid⟩ := List.mem_map.1 hmem
      exact hfresh a ha (hid ▸ List.mem_cons_self)
    · rintro a (_ | ⟨_, ha⟩)
      · exact hseen
      · exact fun hmem => hfresh a ha (List.mem_cons_of_mem _ hmem)
    · rintro a (_ | ⟨_, ha⟩)
      · refine ⟨question, hfind, fun i hi => ?_⟩
        by_contra hlt
        exact hrange (.inr ⟨i, hi, Nat.not_lt.1 hlt⟩)
      · exact hall a ha

/-- Every question has its answer, and the options it chooses are there. -/
theorem validateQuestions_ok (hids : (questions.map (·.id)).Nodup)
    (h : validateQuestions questions answers = .ok ()) :
    (answers.map (·.questionId)).Perm (questions.map (·.id)) ∧
    ∀ question ∈ questions, ∃ answer ∈ answers,
      (∀ other ∈ answers, other.questionId = question.id ↔ other = answer) ∧
      ∀ i ∈ answer.optionIndices, i < question.options.length := by
  simp only [validateQuestions, bind_eq_ok, bailIf_eq_ok] at h
  obtain ⟨_, hlength, h⟩ := h
  obtain ⟨hnodup, -, hall⟩ := validateAnswers_ok h
  have hsub : answers.map (·.questionId) ⊆ questions.map (·.id) := by
    intro id hid
    obtain ⟨a, ha, rfl⟩ := List.mem_map.1 hid
    obtain ⟨question, hfind, -⟩ := hall a ha
    have hq : question.id = a.questionId := by simpa using List.find?_some hfind
    exact List.mem_map.2 ⟨question, List.mem_of_find?_eq_some hfind, hq⟩
  have hperm : (answers.map (·.questionId)).Perm (questions.map (·.id)) :=
    (List.subperm_of_subset hnodup hsub).perm_of_length_le (by simp; omega)
  refine ⟨hperm, fun question hquestion => ?_⟩
  obtain ⟨answer, hanswer, hid⟩ :=
    List.mem_map.1 (hperm.mem_iff.2 (List.mem_map.2 ⟨question, hquestion, rfl⟩))
  obtain ⟨found, hfind, hrange⟩ := hall answer hanswer
  have hq : found.id = answer.questionId := by simpa using List.find?_some hfind
  obtain rfl : found = question := List.inj_on_of_nodup_map hids
    (List.mem_of_find?_eq_some hfind) hquestion (hq.trans hid)
  refine ⟨answer, hanswer, fun other hother => ⟨fun hsame => ?_, fun h => h ▸ hid⟩, hrange⟩
  exact List.inj_on_of_nodup_map hnodup hother hanswer (hsame.trans hid.symm)

theorem find_answer {id : String} {answer : QuestionAnswer} (hanswer : answer ∈ answers)
    (hsame : ∀ other ∈ answers, other.questionId = id ↔ other = answer) :
    answers.find? (·.questionId = id) = some answer := by
  cases hfind : answers.find? (·.questionId = id) with
  | none =>
    have hnone := List.find?_eq_none.1 hfind answer hanswer
    exact absurd (decide_eq_true ((hsame answer hanswer).2 rfl)) hnone
  | some found =>
    have hid : found.questionId = id := by simpa using List.find?_some hfind
    rw [(hsame found (List.mem_of_find?_eq_some hfind)).1 hid]

/-- The labels of options that are there. -/
theorem chooses_of_lt {question : UserQuestion} : ∀ {indices : List ℕ},
    (∀ i ∈ indices, i < question.options.length) →
    (indices.map fun i => question.options[i]?.map (·.label)) =
      (indices.filterMap fun i => question.options[i]?.map (·.label)).map some
  | [], _ => rfl
  | i :: rest, h => by
    have hi := List.getElem?_eq_getElem (h i List.mem_cons_self)
    have hrest := chooses_of_lt fun j hj => h j (List.mem_cons_of_mem _ hj)
    simp only [List.map_cons, List.filterMap_cons, hi, Option.map_some, hrest]

/-! ### Claude -/

namespace Claude

theorem questionId_injective : Function.Injective fun i : ℕ => "q" ++ toString i := by
  intro i j hij
  have hchars := congrArg String.toList hij
  simp only [String.toList_append, List.append_cancel_left_eq, Nat.toString_eq_ofList_toDigits,
    String.toList_ofList] at hchars
  rw [← Nat.ofDigitChars_ten_toDigits (n := i), hchars, Nat.ofDigitChars_ten_toDigits]

theorem questionsAfter_ok : ∀ {rows : List Json} {seen : List String} {questions},
    questionsAfter seen rows = .ok questions →
    List.Forall₂ (fun q row => (row.index "question").str? = some q.text) questions rows ∧
    (questions.map (·.text)).Nodup ∧ (∀ q ∈ questions, q.text ∉ seen) ∧
    questions.map (·.id) =
      (List.range' seen.length questions.length).map fun i => "q" ++ toString i
  | [], seen, questions, h => by
    obtain rfl : [] = questions := by simpa [questionsAfter] using h
    simp
  | row :: rest, seen, questions, h => by
    simp only [questionsAfter, bind_eq_ok, orError_eq_ok, bailIf_eq_ok, pure_eq_ok] at h
    obtain ⟨text, htext, _, hseen, _, -, _, -, options, -, more, hmore, rfl⟩ := h
    obtain ⟨hrows, hnodup, hfresh, hids⟩ := questionsAfter_ok hmore
    refine ⟨.cons (Option.filter_eq_some_iff.1 htext).1 hrows, ?_, ?_, ?_⟩
    · rw [List.map_cons, List.nodup_cons]
      refine ⟨fun hmem => ?_, hnodup⟩
      obtain ⟨q, hq, hsame⟩ := List.mem_map.1 hmem
      exact hfresh q hq (hsame ▸ List.mem_cons_self)
    · rintro q (_ | ⟨_, hq⟩)
      · exact hseen
      · exact fun hmem => hfresh q hq (List.mem_cons_of_mem _ hmem)
    · rw [List.map_cons, hids, List.length_cons, List.length_cons, List.range'_succ, List.map_cons]

theorem parseQuestions_ok {input : Json} (h : parseQuestions input = .ok questions) :
    ∃ rows, (input.index "questions").arr? = some rows ∧
      List.Forall₂ (fun q row => (row.index "question").str? = some q.text) questions rows ∧
      (questions.map (·.text)).Nodup ∧ (questions.map (·.id)).Nodup := by
  simp only [parseQuestions, bind_eq_ok, orError_eq_ok, bailIf_eq_ok] at h
  obtain ⟨rows, hrows, _, -, h⟩ := h
  obtain ⟨hread, htexts, -, hids⟩ := questionsAfter_ok h
  refine ⟨rows, hrows, hread, htexts, ?_⟩
  rw [hids]
  exact List.Nodup.map questionId_injective List.nodup_range'

/-- The fields are written question by question. -/
theorem answerFields_ok {answer : UserQuestion → QuestionAnswer} :
    ∀ {questions : List UserQuestion} {rows : List Json},
      List.Forall₂ (fun q row => (row.index "question").str? = some q.text) questions rows →
      (∀ q ∈ questions, answers.find? (·.questionId = q.id) = some (answer q)) →
      answerFields answers (questions.zip rows) =
        .ok (questions.map fun q => (q.text, .str (answerText q (answer q))))
  | [], [], _, _ => rfl
  | q :: questions, row :: rows, .cons hrow hrows, h => by
    have hrest := answerFields_ok hrows fun q hq => h q (List.mem_cons_of_mem _ hq)
    rw [List.zip_cons_cons, answerFields, h q List.mem_cons_self, hrow, hrest]
    rfl

/-- What is written for valid answers. -/
theorem question_encoded (id : String) {input : Json} (hparse : parseQuestions input = .ok questions)
    (hvalid : validateQuestions questions answers = .ok ()) :
    ∃ fields,
      questionResponse id input questions (some answers) =
        .ok (approval id (.obj (put "answers" (.obj fields) (input.obj?.getD []))) true) ∧
      Encodes questions answers (·.text) trim (fun values => .str (", ".intercalate values))
        fields := by
  obtain ⟨rows, hrows, hread, htexts, hids⟩ := parseQuestions_ok hparse
  obtain ⟨-, hanswers⟩ := validateQuestions_ok hids hvalid
  let answer (q : UserQuestion) := (answers.find? (·.questionId = q.id)).getD default
  have hfind : ∀ q ∈ questions, answers.find? (·.questionId = q.id) = some (answer q) := by
    intro q hq
    obtain ⟨found, hfound, hsame, -⟩ := hanswers q hq
    show _ = some ((answers.find? _).getD default)
    rw [find_answer hfound hsame]
    rfl
  refine ⟨questions.map fun q => (q.text, .str (answerText q (answer q))), ?_, ?_, ?_, ?_⟩
  · simp only [questionResponse, hvalid, hrows]
    show (answerFields answers (questions.zip rows) >>= _) = _
    rw [answerFields_ok hread hfind]
    rfl
  · rw [List.map_map]
    rfl
  · rw [List.map_map]
    exact htexts
  · intro q hq
    obtain ⟨found, hfound, hsame, hrange⟩ := hanswers q hq
    refine ⟨found, hfound, hsame, _, chooses_of_lt hrange, List.mem_map.2 ⟨q, hq, ?_⟩⟩
    show (q.text, Json.str (answerText q ((answers.find? _).getD default))) = _
    rw [find_answer hfound hsame]
    rfl

end Claude

/-! ### Traex -/

namespace Traex

theorem question_id {seen : List String} {row : Json} {q : UserQuestion}
    (h : question seen row = .ok q) : q.id ∉ seen := by
  simp only [question, bind_eq_ok, bailIf_eq_ok, orError_eq_ok, pure_eq_ok] at h
  obtain ⟨_, -, id, -, _, hseen, _, -, options, -, text, -, rfl⟩ := h
  exact hseen

theorem questionsAfter_ids : ∀ {rows : List Json} {seen : List String} {questions},
    questionsAfter seen rows = .ok questions →
    (questions.map (·.id)).Nodup ∧ ∀ q ∈ questions, q.id ∉ seen
  | [], seen, questions, h => by
    obtain rfl : [] = questions := by simpa [questionsAfter] using h
    simp
  | row :: rest, seen, questions, h => by
    simp only [questionsAfter, bind_eq_ok, pure_eq_ok] at h
    obtain ⟨first, hfirst, more, hmore, rfl⟩ := h
    obtain ⟨hnodup, hfresh⟩ := questionsAfter_ids hmore
    refine ⟨?_, ?_⟩
    · rw [List.map_cons, List.nodup_cons]
      refine ⟨fun hmem => ?_, hnodup⟩
      obtain ⟨q, hq, hsame⟩ := List.mem_map.1 hmem
      exact hfresh q hq (hsame ▸ List.mem_cons_self)
    · rintro q (_ | ⟨_, hq⟩)
      · exact question_id hfirst
      · exact fun hmem => hfresh q hq (List.mem_cons_of_mem _ hmem)

theorem mapM_orError {f : ℕ → Option String} {e : String} : ∀ {indices : List ℕ} {labels},
    indices.map f = labels.map some → indices.mapM (fun i => orError e (f i)) = .ok labels
  | [], [], _ => rfl
  | i :: indices, label :: labels, h => by
    obtain ⟨hi, hrest⟩ := List.cons.inj h
    rw [List.mapM_cons, hi, mapM_orError hrest]
    rfl

/-- The fields are put in answer by answer, each under an id of its own. -/
theorem answerFields_ok {values : QuestionAnswer → List String} :
    ∀ {answers : List QuestionAnswer} {fields : List (String × Json)},
      (∀ a ∈ answers, answerValues questions a = .ok (a.questionId, values a)) →
      (answers.map (·.questionId)).Nodup → (∀ a ∈ answers, ∀ e ∈ fields, e.1 ≠ a.questionId) →
      answers.foldlM (fun fields answer => do
        let (id, values) ← answerValues questions answer
        return put id (.obj [("answers", .arr (values.map .str))]) fields) fields =
        .ok (fields ++ answers.map fun a =>
          (a.questionId, .obj [("answers", .arr ((values a).map .str))]))
  | [], fields, _, _, _ => by simp [pure, Except.pure]
  | answer :: rest, fields, h, hids, hfresh => by
    obtain ⟨hnot, hids⟩ := List.nodup_cons.1 hids
    rw [List.foldlM_cons, h answer List.mem_cons_self]
    show rest.foldlM _ (put answer.questionId _ fields) = _
    rw [answerFields_ok (fun a ha => h a (List.mem_cons_of_mem _ ha)) hids, put,
      drop_of_not_mem (hfresh answer List.mem_cons_self), List.append_assoc]
    · rfl
    · intro a ha e he
      rcases mem_put.1 he with ⟨he, -⟩ | rfl
      · exact hfresh a (List.mem_cons_of_mem _ ha) e he
      · exact fun hid => hnot (List.mem_map.2 ⟨a, ha, hid.symm⟩)

/-- What is written for valid answers. -/
theorem question_encoded {params : Json} (hparse : Traex.questions params = .ok questions)
    (hvalid : validateQuestions questions answers = .ok ()) :
    ∃ fields, answerFields questions answers = .ok fields ∧
      Encodes questions answers (·.id) id
        (fun values => .obj [("answers", .arr (values.map .str))]) fields := by
  have hids : (questions.map (·.id)).Nodup := by
    simp only [Traex.questions, bind_eq_ok] at hparse
    obtain ⟨source, -, hsource⟩ := hparse
    exact (questionsAfter_ids hsource).1
  obtain ⟨hperm, hanswers⟩ := validateQuestions_ok hids hvalid
  have hnodup := hperm.nodup_iff.2 hids
  let asked (a : QuestionAnswer) := (questions.find? (·.id = a.questionId)).getD default
  let values (a : QuestionAnswer) :=
    (a.optionIndices.filterMap fun i => (asked a).options[i]?.map (·.label)) ++
      (a.text.filter (!blank ·)).toList
  have hasked : ∀ q ∈ questions, ∀ a ∈ answers, a.questionId = q.id →
      questions.find? (·.id = a.questionId) = some q := by
    intro q hq a ha hid
    cases hfind : questions.find? (·.id = a.questionId) with
    | none =>
      have hnone := List.find?_eq_none.1 hfind q hq
      exact absurd (decide_eq_true hid.symm) hnone
    | some found =>
      have hfound : found.id = a.questionId := by simpa using List.find?_some hfind
      rw [List.inj_on_of_nodup_map hids (List.mem_of_find?_eq_some hfind) hq (hfound.trans hid)]
  have hvalues : ∀ a ∈ answers, answerValues questions a = .ok (a.questionId, values a) := by
    intro a ha
    obtain ⟨q, hq, hid⟩ := List.mem_map.1 (hperm.mem_iff.1 (List.mem_map.2 ⟨a, ha, rfl⟩))
    obtain ⟨found, -, hsame, hrange⟩ := hanswers q hq
    obtain rfl := (hsame a ha).1 hid.symm
    have hfind := hasked q hq a ha hid.symm
    have hq' : asked a = q := by
      show (questions.find? _).getD default = q
      rw [hfind]
      rfl
    rw [answerValues, hfind]
    show (a.optionIndices.mapM (fun i => orError _ (q.options[i]?.map (·.label))) >>= _) = _
    rw [mapM_orError (chooses_of_lt hrange)]
    show Except.ok (q.id, _) = Except.ok (a.questionId, _ ++ _)
    rw [hid, hq']
  refine ⟨_, answerFields_ok hvalues hnodup (fun _ _ _ he => by cases he), ?_, ?_, ?_⟩
  · rw [List.nil_append, List.map_map]
    exact hperm
  · rw [List.nil_append, List.map_map]
    exact hnodup
  · intro q hq
    obtain ⟨a, ha, hsame, hrange⟩ := hanswers q hq
    have hid := (hsame a ha).2 rfl
    refine ⟨a, ha, hsame, _, chooses_of_lt hrange, List.mem_map.2 ⟨a, ha, ?_⟩⟩
    show (a.questionId, Json.obj [("answers", .arr (List.map .str ((a.optionIndices.filterMap
      fun i => ((questions.find? _).getD default).options[i]?.map (·.label)) ++ _)))]) = _
    rw [hasked q hq a ha hid, hid, Option.map_id]
    rfl

end Traex

/-- Answers that pass the validation are written by both adapters: nothing is out of range, no
answer is missing, and each question has its labels and its free text. -/
theorem answers_encoded :
    (∀ (id : String) (input : Json) (questions : List UserQuestion) (answers : List QuestionAnswer),
      Claude.parseQuestions input = .ok questions → validateQuestions questions answers = .ok () →
      ∃ fields,
        Encodes questions answers (·.text) trim (fun values => .str (", ".intercalate values))
          fields ∧
        ∀ a : Claude, a.inSession = true →
          (Claude.advance (.questionAnswer id input questions (some answers))).run a =
            (.ok [.write (Claude.approval id
              (.obj (put "answers" (.obj fields) (input.obj?.getD []))) true)], a)) ∧
    (∀ (id : String) (params input : Json) (questions : List UserQuestion)
      (answers : List QuestionAnswer),
      Traex.questions params = .ok questions → validateQuestions questions answers = .ok () →
      ∃ fields,
        Encodes questions answers (·.id) (fun text => text)
          (fun values => .obj [("answers", .arr (values.map .str))]) fields ∧
        ∀ a : Traex, (Traex.advance (.questionAnswer id input questions (some answers))).run a =
          (.ok [.write (.obj [("id", input.index "id"),
            ("result", .obj [("answers", .obj fields)])])], a)) := by
  refine ⟨fun id input questions answers hparse hvalid => ?_,
    fun id params input questions answers hparse hvalid => ?_⟩
  · obtain ⟨fields, hresponse, hencodes⟩ := Claude.question_encoded id hparse hvalid
    refine ⟨fields, hencodes, fun a ha => ?_⟩
    have hin : ¬a.inSession = false := by rw [ha]; exact Bool.noConfusion
    show (Prog.bailIf (a.inSession = false) _ >>= fun _ =>
      Prog.lift (Claude.questionResponse id input questions (some answers)) >>=
        fun response => pure [.write response] : Claude.Step (List Action)) a = _
    rw [Prog.bailIf, if_neg hin, hresponse]
    rfl
  · obtain ⟨fields, hfields, hencodes⟩ := Traex.question_encoded hparse hvalid
    refine ⟨fields, hencodes, fun a => ?_⟩
    simp only [Traex.advance, Prog.run, bind, Prog.lift, Option.getD_some, hfields, pure]

/-- Two options of a question, and a free text. -/
theorem two_options_encoded : ∃ fields,
    Encodes
      [{ id := "q0", header := "", text := "Which?", multiSelect := true,
         options := [⟨"One", ""⟩, ⟨"Two", ""⟩] }]
      [⟨"q0", [1, 0], some " more "⟩] (·.text) trim
      (fun values => .str (", ".intercalate values)) fields := by
  obtain ⟨fields, hfields, -⟩ := answers_encoded.1 "r"
    (.obj [("questions", .arr [.obj [("question", .str "Which?"), ("multiSelect", .bool true),
      ("options", .arr [.obj [("label", .str "One")], .obj [("label", .str "Two")]])]])])
    [{ id := "q0", header := "", text := "Which?", multiSelect := true,
       options := [⟨"One", ""⟩, ⟨"Two", ""⟩] }]
    [⟨"q0", [1, 0], some " more "⟩] (by rfl) (by rfl)
  exact ⟨fields, hfields⟩

end LatteWork
