import Formula.Proofs.Expr.Content
import Formula.Proofs.Single.Trace

/-!
# Single operators lose closing tokens only

Any token closes a group, also one that would have been part of an expression. Everything else
that the reader of single operators takes is in its expression or in a displaced operation.
-/

set_option autoImplicit false

namespace Formula

namespace Phrase

variable {r : Option Level}

/-- The tokens that close the groups, in order. -/
def closers {r : Option Level} : Phrase r → List Token
  | missing | number _ | letter _ => []
  | call _ argument => argument.closers
  | group _ inner closer => inner.closers ++ closer.toList
  | alone _ operand => operand.closers
  | joined _ _ _ left right => left.closers ++ right.closers
  | signed _ before operand => before.closers ++ operand.closers

/-- What the phrase has of a kind of content is in its expression, was displaced or closes a
group. -/
theorem countP_tokens {kind : Token → Bool}
    (hkind : ∀ token, kind token = true → token.isContent = true) (p : Phrase r) :
    p.tokens.countP kind = p.expr.content.countP kind +
      (p.displaced.flatMap Expr.content).countP kind + p.closers.countP kind := by
  have hopening (b : Bracket) : kind b.opening = false := by
    apply eq_false_of_ne_true
    intro h
    cases b <;> exact absurd (hkind _ h) Bool.false_ne_true
  induction p with
  | missing => rfl
  | number value => simp [tokens, expr, Expr.content, displaced, closers]
  | letter v => simp [tokens, expr, Expr.content, displaced, closers]
  | call f argument ih =>
    simp only [tokens, expr, Expr.content, displaced, closers, List.countP_cons]
    omega
  | group b inner closer ih =>
    simp only [tokens, expr, displaced, closers, b.content_wrap, List.countP_cons,
      List.countP_append, hopening]
    simp only [Bool.false_eq_true, if_false]
    omega
  | alone level operand ih => exact ih
  | joined level op hop left right ihl ihr =>
    simp only [tokens, expr, Expr.content, displaced, closers, List.countP_cons,
      List.countP_append, List.flatMap_append]
    omega
  | signed sign before operand ihb iho =>
    -- Before the sign there is nothing, or it is displaced.
    have hbefore : ((if before.expr.isMissing then [] else [before.expr]).flatMap
        Expr.content) = before.expr.content := by
      cases before.expr <;> simp [Expr.isMissing, Expr.content]
    simp only [tokens, expr, Expr.content, displaced, closers, List.countP_cons,
      List.countP_append, List.flatMap_append, hbefore]
    omega

/-- Every group that is closed has been opened. -/
theorem length_closers_le (p : Phrase r) :
    p.closers.length ≤ p.tokens.countP Token.opensGroup := by
  induction p with
  | missing | number | letter => exact Nat.zero_le _
  | call f argument ih =>
    simp only [closers, tokens, List.countP_cons]
    omega
  | group b inner closer ih =>
    have hopening : b.opening.opensGroup = true := by cases b <;> rfl
    have hcloser : closer.toList.length ≤ 1 := by cases closer <;> simp
    simp only [closers, tokens, List.countP_cons, List.countP_append, List.length_append,
      hopening, if_true]
    omega
  | alone level operand ih => exact ih
  | joined level op hop left right ihl ihr =>
    simp only [closers, tokens, List.countP_cons, List.countP_append, List.length_append]
    omega
  | signed sign before operand ihb iho =>
    simp only [closers, tokens, List.countP_cons, List.countP_append, List.length_append]
    omega

end Phrase

namespace Single

/-- The reader keeps all content that it takes, but for the tokens that have closed a group. -/
theorem countP_kept {kind : Token → Bool}
    (hkind : ∀ token, kind token = true → token.isContent = true) {p : Phrase (some .sum)}
    {c : Cursor} {result : Expr × Cursor} (h : Traces p c result) (hc : c.displaced = []) :
    (result.1.infixTokens ++ result.2.displaced.flatMap Expr.infixTokens).countP kind +
      p.closers.countP kind = p.tokens.countP kind := by
  have hdisplaced : result.2.displaced = p.displaced := by
    rw [h.displaced, hc, List.nil_append]
  rw [h.expr, hdisplaced, p.countP_tokens hkind]
  simp [List.countP_flatMap, Function.comp_def, Expr.countP_infixTokens hkind]

/-- Of the tokens that the reader of single operators takes, it keeps every value, operator and
function in its expression or in a displaced operation, but for at most one for each token that
can open a group. -/
theorem read_keeps_content (tokens : List Token) :
    let reading := Grammar.single.read tokens
    let kept := reading.expr.infixTokens ++ reading.displaced.flatMap Expr.infixTokens
    ∃ used rest, tokens = used ++ rest ∧
      reading.unconsumed = rest.filter (· ≠ .endOfInput) ∧
      (∀ token : Token, token.isContent = true → kept.count token ≤ used.count token) ∧
      used.countP Token.isContent ≤
        kept.countP Token.isContent + used.countP Token.opensGroup := by
  intro reading kept
  obtain ⟨p, htrace⟩ := run_traced (some deepestNesting) tokens
  refine ⟨p.tokens, _, htrace.tokens, rfl, ?_, ?_⟩
  · intro token hcontent
    have hkind (other : Token) (h : (other == token) = true) : other.isContent = true := by
      rwa [eq_of_beq h]
    have hkept : kept.countP (· == token) + p.closers.countP (· == token) =
        p.tokens.countP (· == token) := countP_kept hkind htrace rfl
    exact Nat.le.intro hkept
  · have hkept : kept.countP Token.isContent + p.closers.countP Token.isContent =
        p.tokens.countP Token.isContent := countP_kept (fun _ => id) htrace rfl
    have hclosers : p.closers.countP Token.isContent ≤ p.closers.length := List.countP_le_length
    have hopened := p.length_closers_le
    omega

end Single
end Formula
