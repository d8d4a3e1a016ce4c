import Formula.Proofs.Single.InStep

/-!
# Parentheses around all of the input

With parentheses around it, the input is read one level deeper, and a parenthesis comes where the
input ended. It closes a group that the input left open, or else the outermost one. Nothing else
changes.
-/

set_option autoImplicit false

namespace Formula

namespace Single

variable {factor : Production} {c : Cursor}

/-- A factor that takes all of the tokens is the whole expression. -/
theorem expressionOf_of_tokens_nil (h : (factor c).2.tokens = []) :
    expressionOf factor c = factor c := by
  have hpeek (level : Level) : (factor c).2.peekOperator? level = none :=
    StopsAt.peekOperator? (by rw [h]; exact stopsAt_nil _)
  simp only [expressionOf_eq, termOf, powerOf, joined_eq, hpeek]

theorem factor_reaches (h : factor.Framed) (c : Cursor) :
    (factor c).2.Reaches (expressionOf factor c).2 := by
  have hpower := joined_reaches .power h c
  have hterm := joined_reaches .product (powerOf_framed h) c
  exact (hpower.trans hterm).trans (expressionOf_reaches h c)

/-- Between the parentheses everything is one level deeper, and has one level more to go. -/
theorem agree_nested {token : Token} (h : token.isInert = true) (most : Nat) {tokens : List Token}
    {size : Nat} (hstep : Cursor.InStep (OneMore token) 0 { tokens } c)
    (hlength : c.tokens.length ≤ size) :
    Agree (OneMore token) 0 (Grammar.single.run (some most) tokens)
      ((expressionOf (factorWithin (some (most + 1)) size)).nested (some (most + 1)) c) := by
  have hdescend : Cursor.InStep (OneMore token) 1 { tokens } c.descend := by
    refine ⟨hstep.tokens, ?_, hstep.tooDeep, hstep.unclosed, hstep.displaced⟩
    rw [Cursor.descend_depth, hstep.depth]
  have hinner := agree_oneMore h (some most) hdescend (Nat.le_refl _) hlength
  have hframed (most size : Nat) := expressionOf_framed (factorWithin_framed (some most) size)
  have hrun : (Grammar.single.run (some most) tokens).2.depth = 0 := (hframed _ _).depth _
  have hroom : c.isFull (some (most + 1)) = false := by simp [Cursor.isFull, hstep.depth]
  unfold Production.nested
  rw [hroom, if_neg Bool.false_ne_true]
  refine ⟨hinner.expr, hinner.inStep.tokens, ?_, hinner.inStep.tooDeep, hinner.inStep.unclosed,
    hinner.inStep.displaced⟩
  change (expressionOf (factorWithin (some (most + 1)) size) c.descend).2.depth - 1 = _
  rw [(hframed _ _).depth, hrun, Cursor.descend_depth, hstep.depth]
  rfl

theorem agree_factor_inParens (most : Nat) (tokens : List Token) :
    Agree (fun rest rest' => rest = [] → rest' = []) 0 (Grammar.single.run (some most) tokens)
      (factorWithin (some (most + 1)) (Expr.inParens tokens).length
        { tokens := Expr.inParens tokens }) := by
  have hlength : (Expr.inParens tokens).length = tokens.length + 1 + 1 := by simp [Expr.inParens]
  have hstart : Cursor.InStep (OneMore .closeParen) 0 { tokens }
      ((Cursor.advance { tokens := Expr.inParens tokens }).note (.factor .openParen)) :=
    ⟨.inl rfl, rfl, rfl, rfl, rfl⟩
  have hinside : (Expr.inParens tokens).tail.length ≤ tokens.length + 1 := by simp [Expr.inParens]
  have hinner := agree_nested rfl most hstart hinside
  rw [hlength, factorWithin_group (b := .paren) rfl]
  dsimp only [Bracket.opening, Bracket.wrap]
  refine ⟨hinner.expr, ?_, hinner.inStep.depth, hinner.inStep.tooDeep, hinner.inStep.unclosed,
    hinner.inStep.displaced⟩
  intro hend
  exact (hend ▸ hinner.inStep.tokens).tail_eq_nil

/-- If the parentheses do not make it too deep, the limit that is one level nearer between them is
not reached either. So the input is read as it is without them. -/
theorem agree_run_inParens {less most : Nat} (hmost : most = less + 1) {tokens : List Token}
    (hrest : (Grammar.single.run (some most) tokens).2.tokens = [])
    (hdeep : (Grammar.single.run (some most) (Expr.inParens tokens)).2.tooDeep = false) :
    Agree Eq 0 (Grammar.single.run (some most) tokens)
      (Grammar.single.run (some most) (Expr.inParens tokens)) := by
  subst hmost
  have hfactor := agree_factor_inParens less tokens
  have hframed := factorWithin_framed (some (less + 1)) (Expr.inParens tokens).length
  have hreach := factor_reaches hframed { tokens := Expr.inParens tokens }
  have hinner : (Grammar.single.run (some less) tokens).2.tooDeep = false := by
    by_contra htooDeep
    have hreport := hfactor.inStep.tooDeep.trans (eq_true_of_ne_false htooDeep)
    exact absurd hdeep (ne_false_of_eq_true (hreach.tooDeep hreport))
  rw [← Grammar.single.run_eq_run_of_le (Nat.le_succ less) tokens hinner] at hfactor
  have hleft := hfactor.inStep.tokens hrest
  rw [← expressionOf_of_tokens_nil hleft] at hfactor
  refine ⟨hfactor.expr, hfactor.inStep.mono ?_⟩
  rw [hrest, expressionOf_of_tokens_nil hleft, hleft]

/-- Parentheses around input that is read to its end change nothing, unless it is too deep with
them. -/
theorem read_inParens (tokens : List Token) (hend : .endOfInput ∉ tokens)
    (hall : (Grammar.single.read tokens).unconsumed = [])
    (hdeep : (Grammar.single.read (Expr.inParens tokens)).tooDeep = false) :
    Grammar.single.read (Expr.inParens tokens) = Grammar.single.read tokens := by
  have hrest := Grammar.tokens_eq_nil_of_unconsumed hend hall
  rw [Grammar.tooDeep_read] at hdeep
  have hmost : deepestNesting = 255 + 1 := rfl
  have hagree := agree_run_inParens hmost hrest hdeep
  rw [Grammar.read, Grammar.readWithin_of_agree hagree, ← hagree.inStep.tokens]
  rfl

/-- A group that is left open takes the parenthesis for its own, and the operation that a sign has
displaced stays displaced. -/
theorem read_inParens_left_open :
    let tokens : List Token :=
      [.letter .x, .operator .multiply, .letter .x, .operator .subtract, .openParen, .bar, .letter .x]
    .endOfInput ∉ tokens ∧ (Grammar.single.read tokens).unconsumed = [] ∧
      (Grammar.single.read (Expr.inParens tokens)).tooDeep = false ∧
      Grammar.single.read (Expr.inParens tokens) = Grammar.single.read tokens := by
  intro tokens
  have hend : .endOfInput ∉ tokens := by decide
  have hall : (Grammar.single.read tokens).unconsumed = [] := rfl
  have hdeep : (Grammar.single.read (Expr.inParens tokens)).tooDeep = false := rfl
  exact ⟨hend, hall, hdeep, read_inParens tokens hend hall hdeep⟩

end Single
end Formula
