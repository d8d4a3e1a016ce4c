import Formula.Compiled
import Formula.Proofs.Grammar.Limit
import Formula.Proofs.Phrase.Rendered
import Formula.Proofs.Single.Rereading
import Formula.Proofs.Single.Shape
import Formula.Proofs.Token.Spelling
import Formula.Proofs.Warnings

/-!
# Single operators read their infix forms back

The trees that single operators are read as have decided sums: no operation stands on the left
of one. Such a tree is read back from its infix form, and from the text of that form if its
numbers are finite.
-/

set_option autoImplicit false

namespace Formula

namespace Expr

theorem spellable_inParens {tokens : List Token} (h : Token.Spellable tokens) :
    Token.Spellable (inParens tokens) := by
  have hclose : Token.Spellable (tokens ++ [.closeParen]) :=
    h.insert Token.spellable_nil trivial rfl
  exact Token.spellable_nil.insert hclose trivial rfl

theorem spellable_parensIf (condition : Bool) {tokens : List Token} (h : Token.Spellable tokens) :
    Token.Spellable (parensIf condition tokens) := by
  cases condition with
  | false => exact h
  | true => exact spellable_inParens h

/-- An operator, a bar or a parenthesis stands between any two numbers of an infix form. -/
theorem spellable_infixTokens {e : Expr} (h : ∀ v ∈ e.numbers, (Token.number v).Writable) :
    Token.Spellable e.infixTokens := by
  induction e with
  | missing => exact Token.spellable_nil
  | number value => exact Token.spellable_singleton (h value (by simp [numbers]))
  | letter v => exact Token.spellable_singleton trivial
  | binary op left right ihl ihr =>
    have hl := spellable_parensIf (left.needsParensUnder op)
      (ihl fun v hv => h v (List.mem_append_left _ hv))
    have hr := spellable_parensIf (right.needsParensUnder op)
      (ihr fun v hv => h v (List.mem_append_right _ hv))
    exact hl.insert hr trivial rfl
  | signed sign operand ih =>
    exact Token.spellable_nil.insert (spellable_parensIf _ (ih h)) trivial rfl
  | absolute operand ih =>
    have hclose : Token.Spellable (operand.infixTokens ++ [.bar]) :=
      (ih h).insert Token.spellable_nil trivial rfl
    exact Token.spellable_nil.insert hclose trivial rfl
  | call f argument ih =>
    exact Token.spellable_nil.insert (spellable_inParens (ih h)) trivial rfl

end Expr

namespace Single

/-- The end of the input does not continue a phrase, nor can it be taken for an operand. -/
theorem run_infixTokens_append {e : Expr} (hsums : e.SumsDecided)
    (hgap : e.hasMissing = false ∨ e.hasAbsolute = false) {ending : List Token}
    (hending : ∀ token ∈ ending, token = .endOfInput) {limit : Option Nat}
    (hroom : HasRoom limit (2 * e.operationHeight)) :
    ReadsAs { tokens := e.infixTokens ++ ending } e ending
      (Grammar.single.run limit (e.infixTokens ++ ending)) := by
  have htokens : (e.phrase (some .sum)).tokens = e.infixTokens := by
    simp [e.tokens_phrase, Expr.parensIf]
  have hnesting : (e.phrase (some .sum)).nesting ≤ 2 * e.operationHeight := by
    simpa using e.nesting_phrase_le (some .sum)
  have hgapless : Gapless (e.phrase (some .sum)) ending := by
    rcases hgap with hmissing | habsolute
    · left
      rwa [e.expr_phrase]
    · right
      rw [htokens]
      refine ⟨Expr.bar_notMem_infixTokens habsolute, ?_⟩
      intro token htoken
      obtain rfl := hending token (List.mem_of_mem_head? htoken)
      rfl
  have hclosed := (e.closed_phrase (some .sum)).mono Phrase.anyCloser_of_ownCloser
  have hread : ReadsAs { tokens := e.infixTokens ++ ending } (e.phrase (some .sum)).expr ending
      (Grammar.single.run limit (e.infixTokens ++ ending)) :=
    production_readsAs hclosed (Expr.decided_phrase hsums _) (by rw [htokens]) (Nat.le_refl _)
      (hroom.of_le (by simpa using hnesting)) (stopsAt_of_endOfInput _ hending) hgapless
  rwa [e.expr_phrase] at hread

theorem run_infixTokens {e : Expr} (hsums : e.SumsDecided)
    (hgap : e.hasMissing = false ∨ e.hasAbsolute = false) {limit : Option Nat}
    (hroom : HasRoom limit (2 * e.operationHeight)) :
    ReadsAs { tokens := e.infixTokens ++ [.endOfInput] } e [.endOfInput]
      (Grammar.single.run limit (e.infixTokens ++ [.endOfInput])) :=
  run_infixTokens_append hsums hgap (fun _ => List.mem_singleton.mp) hroom

theorem read_infixTokens_of_sumsDecided {e : Expr} (hsums : e.SumsDecided)
    (hgap : e.hasMissing = false ∨ e.hasAbsolute = false)
    (hdeep : (Grammar.single.read (e.infixTokens ++ [.endOfInput])).tooDeep = false) :
    (Grammar.single.read (e.infixTokens ++ [.endOfInput])).expr = e ∧
      (Grammar.single.read (e.infixTokens ++ [.endOfInput])).unconsumed = [] ∧
      (Grammar.single.read (e.infixTokens ++ [.endOfInput])).displaced = [] := by
  have hread := run_infixTokens hsums hgap (hasRoom_none _)
  rw [← Grammar.run_eq_run_none .single (some deepestNesting) _ hdeep] at hread
  refine ⟨hread.expr, ?_, hread.quiet.displaced⟩
  simp [Grammar.read, Grammar.readWithin, hread.tokens]

theorem number_mem_of_read {tokens : List Token} {value : Float}
    (h : value ∈ (Grammar.single.read tokens).expr.numbers) : .number value ∈ tokens := by
  obtain ⟨p, htokens, hexpr, _⟩ := exists_phrase_read tokens
  rw [hexpr] at h
  exact htokens.subset (Phrase.number_mem_tokens h)

end Single

namespace Compiled

/-- The numbers of a compiled tree are written without a sign, and those that are finite are read
from their texts. -/
theorem writable_of_mem_numbers {text : String} {value : Float}
    (h : value ∈ (ofText .single text).expr.numbers) (hfinite : value.isFinite = true) :
    (Token.number value).Writable := by
  obtain ⟨m, hm, rfl⟩ := Token.exists_of_number_mem_scan (Single.number_mem_of_read h)
  exact ⟨Binary64.isNegative_ofParts hm, hfinite⟩

theorem ofText_infixText {e : Expr} (h : ∀ v ∈ e.numbers, (Token.number v).Writable) :
    Token.ofText e.infixText = e.infixTokens ++ [.endOfInput] :=
  Token.ofText_spell (Expr.spellable_infixTokens h)

/-- The text of the infix form compiles to the same tree, unless that is reported as too deep,
which it is not if no path of the tree has more than half as many operations. -/
theorem ofText_infixText_eq (text : String)
    (hfinite : ∀ v ∈ (ofText .single text).expr.numbers, v.isFinite = true)
    (hgap : (ofText .single text).expr.hasMissing = false ∨
      (ofText .single text).expr.hasAbsolute = false) :
    let f := ofText .single text
    let g := ofText .single f.infixText
    (.tooDeep ∈ g.warnings ∨
      g.expr = f.expr ∧ (∀ c, .unknownCharacter c ∉ g.warnings) ∧
        (∀ rest, .ignored rest ∉ g.warnings) ∧ ∀ part, .displaced part ∉ g.warnings) ∧
    (f.expr.operationHeight ≤ deepestNesting / 2 → .tooDeep ∉ g.warnings) := by
  intro f g
  have hsums : f.expr.SumsDecided := Single.sumsDecided_read _
  have hw : ∀ v ∈ f.expr.numbers, (Token.number v).Writable :=
    fun v hv => writable_of_mem_numbers hv (hfinite v hv)
  have hg : g = ⟨(Grammar.single.read (f.expr.infixTokens ++ [.endOfInput])).expr,
      Warning.ofReading (f.expr.infixTokens ++ [.endOfInput])
        (Grammar.single.read (f.expr.infixTokens ++ [.endOfInput]))⟩ := by
    rw [← ofText_infixText hw]
    rfl
  rw [hg, Warning.tooDeep_mem_ofReading]
  constructor
  · cases hdeep : (Grammar.single.read (f.expr.infixTokens ++ [.endOfInput])).tooDeep with
    | true => exact .inl rfl
    | false =>
      right
      obtain ⟨hexpr, hunconsumed, hdisplaced⟩ :=
        Single.read_infixTokens_of_sumsDecided hsums hgap hdeep
      refine ⟨hexpr, ?_, ?_, ?_⟩
      · intro c hc
        rcases List.mem_append.mp (Warning.unknownCharacter_mem_ofReading hc) with h | h
        · exact (Expr.spellable_infixTokens hw).writable _ h
        · simp at h
      · exact fun rest h => Warning.unconsumed_of_ignored_mem h hunconsumed
      · exact fun part h => Warning.displaced_of_displaced_mem h hdisplaced
  · intro hheight
    have hquiet := (Single.run_infixTokens hsums hgap (hasRoom_twice hheight)).quiet
    exact Bool.eq_false_iff.mp hquiet.tooDeep

theorem ofText_infixText_scaled_distance :
    let f := ofText .single "1.5*|x-(2)|"
    let g := ofText .single "1.5 * |x - 2|"
    f.expr = .binary .multiply (.number 1.5)
        (.absolute (.binary .subtract (.letter .x) (.number 2))) ∧
      f.infixText = "1.5 * |x - 2|" ∧
      (∀ v ∈ f.expr.numbers, v.isFinite = true) ∧ f.expr.hasMissing = false ∧
      f.expr.operationHeight ≤ deepestNesting / 2 ∧
      g.expr = f.expr ∧ .tooDeep ∉ g.warnings := by
  intro f g
  have htree : f.expr = .binary .multiply (.number 1.5)
      (.absolute (.binary .subtract (.letter .x) (.number 2))) := by
    decide +kernel
  have htext : f.infixText = "1.5 * |x - 2|" := by decide +kernel
  have hfinite : ∀ v ∈ f.expr.numbers, v.isFinite = true := by
    rw [htree]
    decide +kernel
  have hmissing : f.expr.hasMissing = false := by
    rw [htree]
    rfl
  have hheight : f.expr.operationHeight ≤ deepestNesting / 2 := by
    rw [htree]
    decide
  obtain ⟨hread, hdeep⟩ := ofText_infixText_eq "1.5*|x-(2)|" hfinite (.inl hmissing)
  rw [htext] at hread hdeep
  refine ⟨htree, htext, hfinite, hmissing, hheight, ?_, hdeep hheight⟩
  rcases hread with hread | hread
  · exact absurd hread (hdeep hheight)
  · exact hread.1

end Compiled

end Formula
