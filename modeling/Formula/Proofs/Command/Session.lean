import Formula.Command.Session
import Formula.Proofs.Command.Line
import Formula.Proofs.Text.Blank

/-!
# Answering is the same as giving

What the arguments do not give, a session asks for. If the user answers the same, the session is the
same but for the questions that it prints.
-/

set_option autoImplicit false

namespace Formula.Command

namespace Outcome

/-- The outcome with a text that is printed before. -/
def printed (text : String) (o : Outcome) : Outcome :=
  { o with stdout := text ++ o.stdout }

/-- The outcome with entries that are written to the journal before. -/
def logged (entries : List Journal.Entry) (o : Outcome) : Outcome :=
  { o with journal := entries ++ o.journal }

theorem printed_printed (first second : String) (o : Outcome) :
    (o.printed second).printed first = o.printed (first ++ second) := by
  simp only [printed, String.append_assoc]

theorem printed_empty (o : Outcome) : o.printed "" = o := by
  simp only [printed, String.empty_append]

end Outcome

namespace Script

variable {α : Type}

theorem andThen_assoc {β γ : Type} (s : Script α) (f : α → Script β) (g : β → Script γ) :
    (s.andThen f).andThen g = s.andThen fun result => (f result).andThen g := by
  induction s with
  | done result => rfl
  | fail failure => rfl
  | print text next ih => exact congrArg (print text) ih
  | log entry next ih => exact congrArg (log entry) ih
  | ask next ih => exact congrArg ask (funext ih)

theorem perform_ask {β : Type} (next : Line → Script β) (k : β → Script α) (input : List UInt8) :
    ((ask next).andThen k).perform input =
      ((next (decodeLine (splitLine input).1)).andThen k).perform (splitLine input).2 := rfl

theorem perform_logAll (entries : List Journal.Entry) (k : Unit → Script α) (input : List UInt8) :
    ((logAll entries).andThen k).perform input = ((k ()).perform input).logged entries := by
  induction entries with
  | nil => rfl
  | cons entry entries ih =>
    change ({ ((logAll entries).andThen k).perform input with
      journal := entry :: (((logAll entries).andThen k).perform input).journal } : Outcome) = _
    rw [ih]
    rfl

end Script

theorem isBlank_of_isLineEnd {c : Char} (h : isLineEnd c = true) : Text.isBlank c = true := by
  rcases Bool.or_eq_true_iff.mp h with hc | hc <;> rw [of_decide_eq_true hc] <;> decide

/-- The answer with the line ends taken off it. -/
def answerOf (line : String) : String :=
  String.ofList (Text.dropRightWhile isLineEnd line.toList)

theorem answerOf_append_lineFeed (text : String) : answerOf (text ++ "\n") = answerOf text := by
  have hfeed : ∀ c ∈ "\n".toList, isLineEnd c = true := by
    intro c hc
    obtain rfl : c = '\n' := List.mem_singleton.mp hc
    rfl
  rw [answerOf, String.toList_append, Text.dropRightWhile_append hfeed, answerOf]

theorem answerOf_eq {text : String} (hfeed : '\n' ∉ text.toList)
    (hreturn : text.toList.getLast? ≠ some '\r') : answerOf text = text := by
  have hdrop : Text.dropRightWhile isLineEnd text.toList = text.toList := by
    rcases text.toList.eq_nil_or_concat' with hnil | ⟨init, last, hlast⟩
    · rw [hnil]
      rfl
    · rw [hlast] at hfeed hreturn ⊢
      apply Text.dropRightWhile_concat
      simp only [isLineEnd, Bool.or_eq_false_iff, decide_eq_false_iff_not]
      constructor
      · rintro rfl
        exact hreturn List.getLast?_concat
      · rintro rfl
        exact hfeed (by simp)
  rw [answerOf, hdrop, String.ofList_toList]

theorem trimmed_answerOf (text : String) : trimmed (answerOf text) = trimmed text := by
  obtain ⟨ends, htext, hends⟩ := Text.exists_eq_dropRightWhile_append isLineEnd text.toList
  have htrim := Text.trim_append (fun c hc => isBlank_of_isLineEnd (hends c hc))
    (Text.dropRightWhile isLineEnd text.toList)
  rw [← htext] at htrim
  rw [trimmed, trimmed, answerOf, String.toList_ofList, htrim]

theorem perform_prompt {α : Type} (message : String) {text : String} (h : '\n' ∉ text.toList)
    (lines : List String) (rest : List UInt8) (k : String → Script α) :
    ((prompt message).andThen k).perform (typed (text :: lines) ++ rest) =
      ((k (answerOf text)).perform (typed lines ++ rest)).printed message := by
  change (((Script.ask _).andThen k).perform _).printed message = _
  rw [Script.perform_ask, splitLine_typed_cons h, decodeLine_bytes, ← answerOf_append_lineFeed]
  rfl

/-- The text is one line, and without the blanks around it, it is read as the value. -/
structure Enters {α : Type} (read : String → Except LiteralError α) (value : α) (text : String) :
    Prop where
  line : '\n' ∉ text.toList
  value : read (trimmed text) = .ok value

/-- The text is one line, and no part of it is taken for the end of the line. -/
structure EntersItself (text : String) : Prop where
  line : '\n' ∉ text.toList
  ends : text.toList.getLast? ≠ some '\r'

/-- What is printed for a question that is only asked if there is an answer to it. -/
def asked (message : String) (answer : Option String) : String :=
  if answer.isSome then message else ""

section

variable {α : Type} {answer : Option String} (lines : List String) (rest : List UInt8)

theorem perform_formulaOrPrompt {text : String}
    (h : ∀ line ∈ answer, line = text ∧ EntersItself text) (k : String → Script α) :
    ((formulaOrPrompt (if answer.isSome then none else some text)).andThen k).perform
        (typed (answer.toList ++ lines) ++ rest) =
      ((k text).perform (typed lines ++ rest)).printed (asked "y = " answer) := by
  cases answer with
  | none => exact (Outcome.printed_empty _).symm
  | some line =>
    obtain ⟨rfl, hitself⟩ := h line rfl
    have hperform := perform_prompt "y = " hitself.line lines rest k
    rwa [answerOf_eq hitself.line hitself.ends] at hperform

theorem perform_valueOrPrompt {β : Type} {read : String → Except LiteralError β} {value : β}
    (h : ∀ text ∈ answer, Enters read value text) (message : String) (k : β → Script α) :
    ((valueOrPrompt (if answer.isSome then none else some value) read message).andThen k).perform
        (typed (answer.toList ++ lines) ++ rest) =
      ((k value).perform (typed lines ++ rest)).printed (asked message answer) := by
  cases answer with
  | none => exact (Outcome.printed_empty _).symm
  | some text =>
    obtain ⟨hline, hvalue⟩ := h text rfl
    change (((prompt message).andThen _).andThen k).perform _ = _
    rw [Script.andThen_assoc, Option.toList_some, List.singleton_append,
      perform_prompt message hline, trimmed_answerOf, hvalue]
    rfl

end

/-- What the user answers, if the session asks for it. -/
structure Answers where
  formula : Option String := none
  lower : Option String := none
  upper : Option String := none
  divisions : Option String := none

namespace Answers

/-- The lines about the area, in the order in which they are asked for. -/
def areaLines (s : Answers) : List String :=
  s.lower.toList ++ (s.upper.toList ++ (s.divisions.toList ++ []))

def lines (s : Answers) : List String :=
  s.formula.toList ++ s.areaLines

/-- The questions about the area that the user has answers to. -/
def questions (s : Answers) : String :=
  asked "Lower limit: " s.lower ++ asked "Upper limit: " s.upper ++
    asked "Number of divisions: " s.divisions

/-- The user answers the formula itself, and texts that are read as the values. -/
structure StandFor (s : Answers) (text : String) (lower upper : Float) (divisions : Nat) :
    Prop where
  formula : ∀ line ∈ s.formula, line = text ∧ EntersItself text
  lower : ∀ line ∈ s.lower, Enters Literal.float? lower line
  upper : ∀ line ∈ s.upper, Enters Literal.float? upper line
  divisions : ∀ line ∈ s.divisions, Enters readDivisions divisions line

end Answers

namespace Arguments

/-- The arguments without those that the user has answers for. -/
def asking (a : Arguments) (s : Answers) : Arguments :=
  { a with
    formula := if s.formula.isSome then none else a.formula
    lower := if s.lower.isSome then none else a.lower
    upper := if s.upper.isSome then none else a.upper
    divisions := if s.divisions.isSome then none else a.divisions }

/-- The text that is printed before the questions about the area. -/
def heading (a : Arguments) (text : String) : String :=
  (if a.tree then s!"{(Compiled.ofText a.grammar text).expr.outline}\n" else "") ++
    s!"For f(x) = {text}:\n"

/-- The entries that are written to the journal before the questions about the area. -/
def entries (a : Arguments) (text : String) : List Journal.Entry :=
  (Journal.ofText a.grammar text ++ understanding (Compiled.ofText a.grammar text)).filter
    fun entry => entry.severity.detail ≤ a.detail

def afterQuestions (a : Arguments) (text : String) (lower upper : Float) (divisions : Nat) :
    Script Unit := do
  a.printArea text (Compiled.ofText a.grammar text) lower upper divisions
  if a.samples then Script.say (sampleText a.grid (Compiled.ofText a.grammar text))

def afterHeading (a : Arguments) (text : String) : Script Unit := do
  let lower ← valueOrPrompt a.lower Literal.float? "Lower limit: "
  let upper ← valueOrPrompt a.upper Literal.float? "Upper limit: "
  let divisions ← valueOrPrompt a.divisions readDivisions "Number of divisions: "
  a.afterQuestions text lower upper divisions

def afterFormula (a : Arguments) (text : String) : Script Unit := do
  let f := Compiled.ofText a.grammar text
  a.report (Journal.ofText a.grammar text ++ understanding f)
  if a.tree then Script.say s!"{f.expr.outline}\n"
  Script.say s!"For f(x) = {text}:\n"
  a.afterHeading text

theorem session_eq (a : Arguments) :
    a.session = (formulaOrPrompt a.formula).andThen a.afterFormula := rfl

theorem perform_afterFormula (a : Arguments) (text : String) (input : List UInt8) :
    (a.afterFormula text).perform input =
      (((a.afterHeading text).perform input).printed (a.heading text)).logged (a.entries text) := by
  have hreport : (a.afterFormula text).perform input = _ :=
    Script.perform_logAll (a.entries text) _ input
  rw [hreport]
  unfold heading
  cases a.tree with
  | false =>
    simp only [Bool.false_eq_true, if_false, String.empty_append]
    rfl
  | true => exact congrArg (Outcome.logged _) (Outcome.printed_printed _ _ _)

/-- What comes after the last question does not depend on what is left of the input. -/
theorem perform_afterQuestions (a : Arguments) (text : String) (lower upper : Float)
    (divisions : Nat) (input input' : List UInt8) :
    (a.afterQuestions text lower upper divisions).perform input =
      (a.afterQuestions text lower upper divisions).perform input' := by
  unfold afterQuestions printArea
  cases area divisions lower upper (Compiled.ofText a.grammar text).eval with
  | error error => rfl
  | ok value =>
    change ((Script.logAll _).andThen _ |>.andThen _).perform input =
      ((Script.logAll _).andThen _ |>.andThen _).perform input'
    rw [Script.andThen_assoc, Script.perform_logAll, Script.perform_logAll]
    cases a.samples <;> rfl

section

variable {a : Arguments} {text : String} {lower upper : Float} {divisions : Nat}
  (hformula : a.formula = some text) (hlower : a.lower = some lower)
  (hupper : a.upper = some upper) (hdivisions : a.divisions = some divisions)

include hlower hupper hdivisions

theorem perform_afterHeading {s : Answers} (hs : s.StandFor text lower upper divisions)
    (rest : List UInt8) :
    ((a.asking s).afterHeading text).perform (typed s.areaLines ++ rest) =
      ((a.afterQuestions text lower upper divisions).perform rest).printed s.questions := by
  change ((valueOrPrompt (if s.lower.isSome then none else a.lower) _ _).andThen _).perform _ = _
  rw [Answers.areaLines, hlower, perform_valueOrPrompt _ _ hs.lower]
  change (((valueOrPrompt (if s.upper.isSome then none else a.upper) _ _).andThen _).perform
    _).printed _ = _
  rw [hupper, perform_valueOrPrompt _ _ hs.upper, Outcome.printed_printed]
  change (((valueOrPrompt (if s.divisions.isSome then none else a.divisions) _ _).andThen _).perform
    _).printed _ = _
  rw [hdivisions, perform_valueOrPrompt _ _ hs.divisions, Outcome.printed_printed]
  rfl

include hformula

theorem outcome_asking_eq {s : Answers} (hs : s.StandFor text lower upper divisions)
    (rest : List UInt8) :
    (a.asking s).outcome (typed s.lines ++ rest) =
      (((((a.afterQuestions text lower upper divisions).perform rest).printed s.questions).printed
        (a.heading text)).logged (a.entries text)).printed (asked "y = " s.formula) := by
  have hsession := (a.asking s).session_eq
  rw [outcome, hsession]
  change ((formulaOrPrompt (if s.formula.isSome then none else a.formula)).andThen _).perform _ = _
  rw [hformula, Answers.lines, perform_formulaOrPrompt _ _ hs.formula, perform_afterFormula,
    perform_afterHeading hlower hupper hdivisions hs]
  rfl

/-- Whatever part of the arguments the user answers instead, the session ends alike. It prints the
questions besides: the one about the formula first, the others after the heading. -/
theorem outcome_asking {s : Answers} (hs : s.StandFor text lower upper divisions)
    (input rest : List UInt8) :
    ((a.asking s).outcome (typed s.lines ++ rest)).exitCode = (a.outcome input).exitCode ∧
      (∀ journalText failureText,
        ((a.asking s).outcome (typed s.lines ++ rest)).stderrWith journalText failureText =
          (a.outcome input).stderrWith journalText failureText) ∧
      ∃ after, (a.outcome input).stdout = a.heading text ++ after ∧
        ((a.asking s).outcome (typed s.lines ++ rest)).stdout =
          asked "y = " s.formula ++ a.heading text ++ s.questions ++ after := by
  have hnone : ({} : Answers).StandFor text lower upper divisions := by
    constructor <;> exact fun _ h => nomatch h
  have hgiven : a.outcome input = _ :=
    outcome_asking_eq hformula hlower hupper hdivisions hnone input
  have hanswered := outcome_asking_eq hformula hlower hupper hdivisions hs rest
  rw [perform_afterQuestions a text lower upper divisions rest input] at hanswered
  rw [hanswered, hgiven]
  refine ⟨rfl, fun _ _ => rfl, ((a.afterQuestions text lower upper divisions).perform input).stdout, ?_, ?_⟩
  · simp [Outcome.printed, Outcome.logged, Answers.questions, asked]
  · simp [Outcome.printed, Outcome.logged, String.append_assoc]

end

theorem outcome_asking_no_divisions :
    let a : Arguments :=
      { formula := some "x^2"
        lower := some 0.5
        upper := some 1
        divisions := some 0
        tree := true }
    let s : Answers := { formula := some "x^2", upper := some "\t1 ", divisions := some "+0\r" }
    s.StandFor "x^2" 0.5 1 0 ∧
      ((a.asking s).outcome (typed ["x^2", "\t1 ", "+0\r"])).exitCode = (a.outcome []).exitCode ∧
      (∀ journalText failureText,
        ((a.asking s).outcome (typed ["x^2", "\t1 ", "+0\r"])).stderrWith journalText failureText =
          (a.outcome []).stderrWith journalText failureText) ∧
      ∃ after, (a.outcome []).stdout = a.heading "x^2" ++ after ∧
        ((a.asking s).outcome (typed ["x^2", "\t1 ", "+0\r"])).stdout =
          "y = " ++ a.heading "x^2" ++ "Upper limit: Number of divisions: " ++ after := by
  intro a s
  have hs : s.StandFor "x^2" 0.5 1 0 := by
    constructor
    · rintro line ⟨⟩
      exact ⟨rfl, by decide, by decide⟩
    · rintro line ⟨⟩
    · rintro line ⟨⟩
      exact ⟨by decide, by decide +kernel⟩
    · rintro line ⟨⟩
      exact ⟨by decide, by decide +kernel⟩
  exact ⟨hs, outcome_asking (a := a) rfl rfl rfl rfl hs [] []⟩

end Arguments

end Formula.Command
