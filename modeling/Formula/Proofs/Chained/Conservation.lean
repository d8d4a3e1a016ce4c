import Formula.Proofs.Chained.Trace
import Formula.Proofs.Expr.Content

/-!
# Chains account for every token

Whatever the tokens are, the reader of chains puts each one that it takes into its expression, in
order, or it is a bracket. Nothing else is in the expression. The brackets that it takes tell how
many groups it has to report as unclosed.
-/

set_option autoImplicit false

namespace Formula

/-- The number of absolute values in the tree. -/
def Expr.absolutes : Expr → Nat
  | missing | number _ | letter _ => 0
  | binary _ left right => left.absolutes + right.absolutes
  | signed _ operand => operand.absolutes
  | absolute operand => operand.absolutes + 1
  | call _ argument => argument.absolutes

namespace Chained

open Token (unbracketed)

variable {e : Expr} {used : List Token} {opened : Nat}

theorem Spans.unbracketed_eq (h : Spans e used opened) : unbracketed used = e.content := by
  induction h with
  | missing => rfl
  | number value => rfl
  | letter v => rfl
  | binary op _ _ ihl ihr =>
    rw [Token.unbracketed_append, ihl]
    exact congrArg (_ ++ .operator op :: ·) ihr
  | signed sign _ ih => exact congrArg (.operator sign.operator :: ·) ih
  | call f _ ih => exact congrArg (.function f :: ·) ih
  | closed b _ ih =>
    simp [Token.unbracketed_cons, b.isBracket_opening, b.isBracket_closing, b.content_wrap, ih]
  | unclosed b _ ih => simp [Token.unbracketed_cons, b.isBracket_opening, b.content_wrap, ih]

/-- A group has a closing token or is left open, and the bar opens groups as well as it closes
them. -/
theorem Spans.count_brackets (h : Spans e used opened) :
    used.count .openParen + 2 * e.absolutes =
      opened + used.count .closeParen + used.count .bar := by
  induction h with
  | missing => rfl
  | number value => rfl
  | letter v => rfl
  | binary op _ _ ihl ihr =>
    simp [Expr.absolutes]
    omega
  | signed sign _ ih => simpa [Expr.absolutes, List.count_cons] using ih
  | call f _ ih => simpa [Expr.absolutes, List.count_cons] using ih
  | closed b _ ih =>
    cases b with
    | paren =>
      simp [Bracket.wrap, Bracket.opening, Bracket.closing]
      omega
    | bar =>
      simp [Bracket.wrap, Bracket.opening, Bracket.closing, Expr.absolutes]
      omega
  | unclosed b _ ih =>
    cases b with
    | paren =>
      simp [Bracket.wrap, Bracket.opening]
      omega
    | bar =>
      simp [Bracket.wrap, Bracket.opening, Expr.absolutes]
      omega

theorem run_conserves (limit : Option Nat) (tokens : List Token) :
    ∃ used, tokens = used ++ (Grammar.chained.run limit tokens).2.tokens ∧
      unbracketed used = (Grammar.chained.run limit tokens).1.content := by
  obtain ⟨used, htokens, hspans⟩ := run_spans limit tokens
  exact ⟨used, htokens, hspans.unbracketed_eq⟩

/-- The reader of chains neither loses nor invents nor moves a token: it takes a part at the start
of the tokens, and that part is the infix form of the expression up to brackets. -/
theorem read_conserves (tokens : List Token) :
    ∃ used rest, tokens = used ++ rest ∧
      (Grammar.chained.read tokens).unconsumed = rest.filter (· ≠ .endOfInput) ∧
      unbracketed used = unbracketed (Grammar.chained.read tokens).expr.infixTokens := by
  obtain ⟨used, htokens, hcontent⟩ := run_conserves (some deepestNesting) tokens
  refine ⟨used, _, htokens, rfl, ?_⟩
  rw [Expr.unbracketed_infixTokens]
  exact hcontent

/-- What is left decides how often a token has been taken, wherever the end of the input stands. -/
theorem count_eq_of_filter_eq {token : Token} (h : token ≠ .endOfInput)
    {used used' rest rest' : List Token} (htokens : used ++ rest = used' ++ rest')
    (hrest : rest.filter (· ≠ .endOfInput) = rest'.filter (· ≠ .endOfInput)) :
    used.count token = used'.count token := by
  have hkeep (left : List Token) : (left.filter (· ≠ .endOfInput)).count token = left.count token :=
    List.count_filter (by simpa using h)
  have hcount := congrArg (List.count token) htokens
  rw [List.count_append, List.count_append, ← hkeep rest, hrest, hkeep rest'] at hcount
  exact Nat.add_right_cancel hcount

/-- The reader of chains takes a part at the start of the tokens and leaves the rest. The groups that
are opened in that part, less those that are closed, are the groups that it reports. Every absolute
value has one bar that opens it, and all other bars close one. -/
theorem read_unclosed_eq (tokens : List Token) :
    (∃ used rest, tokens = used ++ rest ∧
      (Grammar.chained.read tokens).unconsumed = rest.filter (· ≠ .endOfInput)) ∧
    ∀ used rest, tokens = used ++ rest →
      (Grammar.chained.read tokens).unconsumed = rest.filter (· ≠ .endOfInput) →
      (used.count .openParen : Int) - used.count .closeParen +
          2 * (Grammar.chained.read tokens).expr.absolutes - used.count .bar =
        (Grammar.chained.read tokens).unclosed := by
  obtain ⟨used, htokens, hspans⟩ := run_spans (some deepestNesting) tokens
  refine ⟨⟨used, _, htokens, rfl⟩, ?_⟩
  intro used' rest' htokens' hrest'
  have hcount {token : Token} (h : token ≠ .endOfInput) : used'.count token = used.count token :=
    count_eq_of_filter_eq h (htokens'.symm.trans htokens) hrest'.symm
  have hbrackets : used.count .openParen + 2 * (Grammar.chained.read tokens).expr.absolutes =
      (Grammar.chained.read tokens).unclosed + used.count .closeParen + used.count .bar :=
    hspans.count_brackets
  rw [hcount Token.noConfusion, hcount Token.noConfusion, hcount Token.noConfusion]
  omega

/-- A parenthesis does not close the bar before it, but it still closes the group around the bar. -/
theorem read_unclosed_bar_in_group :
    let reading :=
      Grammar.chained.read [.openParen, .bar, .letter .x, .closeParen, .letter .y, .endOfInput]
    reading.expr = .absolute (.letter .x) ∧ reading.unconsumed = [.letter .y] ∧
      reading.unclosed = 1 := by
  intro reading
  have hexpr : reading.expr = .absolute (.letter .x) := by decide
  have hunconsumed : reading.unconsumed = [.letter .y] := by decide
  have hcount := (read_unclosed_eq _).2 [.openParen, .bar, .letter .x, .closeParen]
    [.letter .y, .endOfInput] rfl hunconsumed
  have hbrackets : (1 : Int) - 1 + 2 * reading.expr.absolutes - 1 = reading.unclosed := hcount
  rw [hexpr] at hbrackets
  exact ⟨hexpr, hunconsumed, (Int.ofNat.inj hbrackets).symm⟩

end Chained
end Formula
