import Formula.Proofs.Single.RoundTrip

/-!
# The infix form has no parentheses to spare

Among the phrases of an expression that have parentheses around every argument, the phrase of the
infix form has the fewest. So without one of its pairs that is not the pair of an argument, an infix
form is read as another expression.
-/

set_option autoImplicit false

namespace Formula

open Token (openParen closeParen)

/-- What may come after a token if all arguments are in parentheses. -/
def Token.OpensArgument : Token → Token → Prop
  | function _, next => next = openParen
  | _, _ => True

namespace Expr

theorem isChain_parensIf_append {condition : Bool} {tokens : List Token}
    (h : ∀ rest : List Token, rest.IsChain Token.OpensArgument →
      (tokens ++ rest).IsChain Token.OpensArgument) {rest : List Token}
    (hrest : rest.IsChain Token.OpensArgument) :
    (parensIf condition tokens ++ rest).IsChain Token.OpensArgument := by
  cases condition with
  | false => exact h rest hrest
  | true =>
    have hclose : (closeParen :: rest).IsChain Token.OpensArgument :=
      List.isChain_cons.mpr ⟨fun _ _ => trivial, hrest⟩
    have hopen : (openParen :: (tokens ++ closeParen :: rest)).IsChain Token.OpensArgument :=
      List.isChain_cons.mpr ⟨fun _ _ => trivial, h _ hclose⟩
    simpa [parensIf, inParens] using hopen

theorem isChain_infixTokens_append (e : Expr) {rest : List Token}
    (hrest : rest.IsChain Token.OpensArgument) :
    (e.infixTokens ++ rest).IsChain Token.OpensArgument := by
  induction e generalizing rest with
  | missing => exact hrest
  | number value => exact List.isChain_cons.mpr ⟨fun _ _ => trivial, hrest⟩
  | letter v => exact List.isChain_cons.mpr ⟨fun _ _ => trivial, hrest⟩
  | binary op left right ihl ihr =>
    rw [infixTokens, List.append_assoc, List.cons_append]
    apply isChain_parensIf_append fun _ => ihl
    exact List.isChain_cons.mpr ⟨fun _ _ => trivial, isChain_parensIf_append (fun _ => ihr) hrest⟩
  | signed sign operand ih =>
    exact List.isChain_cons.mpr ⟨fun _ _ => trivial, isChain_parensIf_append (fun _ => ih) hrest⟩
  | absolute operand ih =>
    have hclose : (Token.bar :: rest).IsChain Token.OpensArgument :=
      List.isChain_cons.mpr ⟨fun _ _ => trivial, hrest⟩
    simpa [infixTokens] using List.isChain_cons.mpr ⟨fun _ _ => trivial, ih hclose⟩
  | call f argument ih =>
    have hargument : (parensIf true argument.infixTokens ++ rest).IsChain Token.OpensArgument :=
      isChain_parensIf_append (fun _ => ih) hrest
    exact List.isChain_cons_cons.mpr ⟨rfl, hargument⟩

theorem count_phrase (e : Expr) (r : Option Level) :
    (e.phrase r).tokens.count openParen =
      e.infixTokens.count openParen + if e.needsParens r then 1 else 0 := by
  rw [tokens_phrase]
  cases e.needsParens r <;> simp [parensIf, inParens]

theorem count_phrase_sum (e : Expr) :
    (e.phrase (some .sum)).tokens.count openParen = e.infixTokens.count openParen := by
  simp [count_phrase]

/-- What needs parentheses at a level needs them in its operands. -/
theorem count_phrase_some_le (level : Level) (e : Expr) :
    (e.phrase (some level)).tokens.count openParen ≤
      (e.phrase level.operand).tokens.count openParen := by
  have hneeds (h : e.needsParens (some level) = true) : e.needsParens level.operand = true := by
    cases e with
    | binary op left right =>
      simp only [needsParens] at h ⊢
      revert h
      cases level <;> cases op <;> decide
    | signed sign operand => cases level <;> rfl
    | _ => exact h
  rw [count_phrase, count_phrase]
  split
  · rename_i h
    rw [if_pos (hneeds h)]
  · omega

theorem count_infixTokens_binary (op : Operator) (left right : Expr) :
    (binary op left right).infixTokens.count openParen =
      (left.phrase op.level.operand).tokens.count openParen +
        (right.phrase op.level.operand).tokens.count openParen := by
  simp [infixTokens, tokens_phrase, needsParens_operand]

theorem count_infixTokens_signed (sign : Sign) (operand : Expr) :
    (signed sign operand).infixTokens.count openParen =
      (operand.phrase (some .product)).tokens.count openParen := by
  simp [infixTokens, tokens_phrase, needsParens_product]

end Expr

namespace Phrase

variable {r : Option Level}

/-- No phrase of an expression has fewer parentheses than the one of the infix form, and one in
parentheses has more than it would need without them. -/
theorem count_phrase_le {p : Phrase r} (hcalls : p.tokens.IsChain Token.OpensArgument)
    (hmissing : p.expr.hasMissing = false) :
    (p.expr.phrase r).tokens.count openParen ≤ p.tokens.count openParen ∧
      (r = none → p.tokens.head? = some openParen →
        p.expr.infixTokens.count openParen < p.tokens.count openParen) := by
  induction p with
  | missing => simp [expr, Expr.hasMissing] at hmissing
  | number value => simp [expr, Expr.phrase, tokens]
  | letter v => simp [expr, Expr.phrase, tokens]
  | call f argument ih =>
    obtain ⟨token, rest, htokens, _⟩ := argument.startsFactor_of_not_hasMissing (by decide) hmissing
    have hargument := hcalls.tail
    rw [tokens, htokens] at hcalls
    have hhead : argument.tokens.head? = some openParen := by
      rw [htokens, List.head?_cons, (List.isChain_cons_cons.mp hcalls).1]
    have hlt := (ih hargument hmissing).2 rfl hhead
    have hphrase : ((call f argument).expr.phrase none).tokens.count openParen =
        argument.expr.infixTokens.count openParen + 1 := by
      simp [expr, Expr.count_phrase, Expr.needsParens, Expr.infixTokens, Expr.inParens]
    have hcount : (call f argument).tokens.count openParen = argument.tokens.count openParen := by
      simp [tokens]
    refine ⟨?_, fun _ hopen => by simp [tokens] at hopen⟩
    rw [hphrase, hcount]
    exact hlt
  | group b inner closer ih =>
    have hinner : inner.tokens.IsChain Token.OpensArgument :=
      (List.isChain_append.mp hcalls.tail).1
    have hwrap : inner.expr.hasMissing = false := by cases b <;> exact hmissing
    have hle := (ih hinner hwrap).1
    rw [Expr.count_phrase_sum] at hle
    cases b with
    | paren =>
      have hcount : inner.tokens.count openParen + 1 ≤
          (group .paren inner closer).tokens.count openParen := by
        simp [tokens, Bracket.opening]
      have hphrase := inner.expr.count_phrase none
      refine ⟨?_, fun _ _ => Nat.lt_of_le_of_lt hle hcount⟩
      simp only [expr, Bracket.wrap]
      split at hphrase <;> omega
    | bar =>
      have hcount : inner.tokens.count openParen ≤
          (group .bar inner closer).tokens.count openParen := by
        simp [tokens, Bracket.opening]
      have hphrase : ((group .bar inner closer).expr.phrase none).tokens.count openParen =
          inner.expr.infixTokens.count openParen := by
        simp [expr, Bracket.wrap, Expr.count_phrase, Expr.needsParens, Expr.infixTokens]
      refine ⟨?_, fun _ hopen => by simp [tokens, Bracket.opening] at hopen⟩
      rw [hphrase]
      exact Nat.le_trans hle hcount
  | alone level operand ih =>
    refine ⟨?_, fun hr => by cases hr⟩
    exact Nat.le_trans (Expr.count_phrase_some_le level _) (ih hcalls hmissing).1
  | joined level op hop left right ihl ihr =>
    subst hop
    obtain ⟨hleft, hright, _⟩ := List.isChain_append.mp hcalls
    simp only [expr, Expr.hasMissing, Bool.or_eq_false_iff] at hmissing
    have hl := (ihl hleft hmissing.1).1
    have hr := (ihr hright.tail hmissing.2).1
    refine ⟨?_, fun hr => by cases hr⟩
    have hfits : (Expr.binary op left.expr right.expr).needsParens (some op.level) = false := by
      simp [Expr.needsParens, Level.fits]
    have hcount : (joined op.level op rfl left right).tokens.count openParen =
        left.tokens.count openParen + right.tokens.count openParen := by
      simp [tokens]
    rw [expr, Expr.count_phrase, hfits, if_neg Bool.false_ne_true, Nat.add_zero,
      Expr.count_infixTokens_binary, hcount]
    exact Nat.add_le_add hl hr
  | signed sign before operand ihb iho =>
    obtain ⟨_, hoperand, _⟩ := List.isChain_append.mp hcalls
    have hle := (iho hoperand.tail hmissing).1
    refine ⟨?_, fun hr => by cases hr⟩
    rw [expr, Expr.count_phrase_sum, Expr.count_infixTokens_signed]
    simp only [tokens, List.count_append, List.count_cons]
    omega

end Phrase

namespace Single

variable {e : Expr}

/-- An expression whose arguments are all in parentheses is not read from tokens with fewer
parentheses than its infix form has. -/
theorem read_expr_ne_of_count_lt {tokens : List Token} (hmissing : e.hasMissing = false)
    (hcalls : tokens.IsChain Token.OpensArgument)
    (hcount : tokens.count openParen < e.infixTokens.count openParen) :
    (Grammar.single.read tokens).expr ≠ e := by
  rintro rfl
  obtain ⟨p, htrace⟩ := run_traced (some deepestNesting) tokens
  have hexpr : (Grammar.single.read tokens).expr = p.expr := htrace.expr
  have htokens : tokens =
      p.tokens ++ (Grammar.single.run (some deepestNesting) tokens).2.tokens := htrace.tokens
  rw [hexpr] at hmissing hcount
  rw [htokens] at hcalls
  have hle := (p.count_phrase_le (List.isChain_append.mp hcalls).1 hmissing).1
  have hused : p.tokens.count openParen ≤ tokens.count openParen := by
    rw [htokens, List.count_append]
    exact Nat.le_add_right _ _
  rw [Expr.count_phrase_sum] at hle
  omega

/-- Without two parentheses that are not around an argument, every argument keeps its own. -/
theorem isChain_without_parens {before inner after : List Token}
    (h : (before ++ openParen :: (inner ++ closeParen :: after)).IsChain Token.OpensArgument)
    (hbefore : ∀ f, before.getLast? ≠ some (.function f)) :
    (before ++ inner ++ after).IsChain Token.OpensArgument := by
  have hopens (token next : Token) (hne : ∀ f, token ≠ .function f) :
      token.OpensArgument next := by
    cases token with
    | function f => exact absurd rfl (hne f)
    | _ => trivial
  obtain ⟨hchain, hopen, _⟩ := List.isChain_append.mp h
  obtain ⟨hinner, hclose, hjoint⟩ := List.isChain_append.mp hopen.tail
  have hlast (token : Token) (htoken : token ∈ inner.getLast?) (f : Elementary) :
      token ≠ .function f := by
    rintro rfl
    cases hjoint _ htoken closeParen rfl
  rw [List.append_assoc]
  refine List.isChain_append.mpr ⟨hchain, List.isChain_append.mpr ⟨hinner, hclose.tail, ?_⟩, ?_⟩
  · exact fun token htoken next _ => hopens token next (hlast token htoken)
  · intro token htoken next _
    apply hopens
    rintro f rfl
    exact hbefore f htoken

/-- An expression without a missing operand is read from its infix form, if that is not too deep.
Without one of its pairs of parentheses that is not the pair of an argument, the infix form is read
as another expression. That also holds of two parentheses that are not a pair. -/
theorem read_infixTokens_without_parens (tokens : List Token) :
    let e := (Grammar.single.read tokens).expr
    e.hasMissing = false → e.operationHeight ≤ deepestNesting / 2 →
      (Grammar.single.read e.infixTokens).expr = e ∧
      ∀ before inner after : List Token,
        e.infixTokens = before ++ openParen :: (inner ++ closeParen :: after) →
        (∀ f, before.getLast? ≠ some (.function f)) →
        (Grammar.single.read (before ++ inner ++ after)).expr ≠ e := by
  intro e hmissing hheight
  constructor
  · have hread := run_infixTokens_append (sumsDecided_read tokens) (.inl hmissing)
      (List.forall_mem_nil _) (hasRoom_twice hheight)
    rw [List.append_nil] at hread
    exact hread.expr
  · intro before inner after hsplit hbefore
    have hcalls := e.isChain_infixTokens_append .nil
    rw [List.append_nil, hsplit] at hcalls
    apply read_expr_ne_of_count_lt hmissing (isChain_without_parens hcalls hbefore)
    have hclose : List.count openParen (closeParen :: after) = List.count openParen after :=
      List.count_cons_of_ne (by simp)
    rw [hsplit]
    simp only [List.count_append, List.count_cons_self, hclose]
    omega

theorem read_without_parens_in_bars :
    let power : List Token := [.letter .x, .operator .power, .letter .y]
    let before : List Token := [.letter .z, .operator .multiply, openParen, .letter .x,
      .operator .subtract, .bar, .letter .y, .operator .power]
    let after : List Token := [.bar, closeParen]
    let tokens := before ++ openParen :: (power ++ closeParen :: after)
    (Grammar.single.read tokens).expr.hasMissing = false ∧
      (Grammar.single.read tokens).expr.operationHeight ≤ deepestNesting / 2 ∧
      (Grammar.single.read tokens).expr.infixTokens = tokens ∧
      (Grammar.single.read (before ++ power ++ after)).expr ≠
        (Grammar.single.read tokens).expr := by
  intro power before after tokens
  have hmissing : (Grammar.single.read tokens).expr.hasMissing = false := rfl
  have hheight : (Grammar.single.read tokens).expr.operationHeight ≤ deepestNesting / 2 := by decide
  have hinfix : (Grammar.single.read tokens).expr.infixTokens = tokens := rfl
  have hbefore (f : Elementary) : before.getLast? ≠ some (.function f) := by
    intro h
    cases h
  obtain ⟨_, hne⟩ := read_infixTokens_without_parens tokens hmissing hheight
  exact ⟨hmissing, hheight, hinfix, hne before power after hinfix hbefore⟩

end Single
end Formula
