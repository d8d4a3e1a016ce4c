import Formula.Proofs.Chained.Rereading
import Formula.Proofs.Grammar.Limit
import Formula.Proofs.Phrase.Rendered

/-!
# Chains read infix forms back

The parentheses of an infix form are chosen for single operators, but they keep the tree for
chains too. An operation takes at most two levels of the depth, one for itself and one for the
parentheses around it.
-/

set_option autoImplicit false

namespace Formula.Chained

theorem run_infixTokens {e : Expr} (h : e.hasMissing = false) {limit : Option Nat}
    (hroom : HasRoom limit (2 * e.operationHeight)) :
    ReadsAs { tokens := e.infixTokens } e [] (Grammar.chained.run limit e.infixTokens) := by
  have htokens : (e.phrase (some .sum)).tokens = e.infixTokens := by
    simp [e.tokens_phrase, Expr.parensIf]
  have hnesting : (e.phrase (some .sum)).nesting ≤ 2 * e.operationHeight := by
    simpa using e.nesting_phrase_le (some .sum)
  have hclosed := e.closed_phrase (some .sum)
  have hread : ReadsUnless (¬ (e.phrase (some .sum)).Closed Phrase.OwnCloser)
      { tokens := e.infixTokens } (e.phrase (some .sum)).expr []
      (Grammar.chained.run limit e.infixTokens) :=
    production_readsUnless (hclosed.mono Phrase.anyCloser_of_ownCloser) (by simpa using h)
      (by simp [htokens]) (Nat.le_refl _) (hroom.of_le (by simpa using hnesting)) (stopsAt_nil _)
  rw [e.expr_phrase] at hread
  rcases hread with hread | ⟨hflaw, _⟩
  · exact hread
  · exact absurd hclosed hflaw

/-- Every tree without missing operands is read back from its infix form, unless the reading is
too deep, which it is not if no path of the tree has more than half as many operations. -/
theorem read_infixTokens (e : Expr) (h : e.hasMissing = false) :
    ((Grammar.chained.read e.infixTokens).tooDeep = false →
      (Grammar.chained.read e.infixTokens).expr = e ∧
      (Grammar.chained.read e.infixTokens).unconsumed = [] ∧
      (Grammar.chained.read e.infixTokens).unclosed = 0 ∧
      (Grammar.chained.read e.infixTokens).displaced = []) ∧
    (e.operationHeight ≤ deepestNesting / 2 →
      (Grammar.chained.read e.infixTokens).tooDeep = false) := by
  constructor
  · intro hdeep
    have hread := run_infixTokens h (hasRoom_none _)
    rw [← Grammar.run_eq_run_none .chained (some deepestNesting) _ hdeep] at hread
    refine ⟨hread.expr, ?_, hread.quiet.unclosed, hread.quiet.displaced⟩
    simp [Grammar.read, Grammar.readWithin, hread.tokens]
  · intro hheight
    exact (run_infixTokens h (hasRoom_twice hheight)).quiet.tooDeep

theorem read_infixTokens_negated_difference :
    let e : Expr := .signed .minus (.binary .subtract (.letter .x) (.absolute (.letter .y)))
    e.hasMissing = false ∧ (Grammar.chained.read e.infixTokens).expr = e := by
  intro e
  have hdeep := (read_infixTokens e rfl).2 (by decide)
  exact ⟨rfl, ((read_infixTokens e rfl).1 hdeep).1⟩

end Formula.Chained
