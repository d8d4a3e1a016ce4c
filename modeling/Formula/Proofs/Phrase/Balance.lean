import Formula.Proofs.Phrase.Basic

/-!
# The balance of groups

Every token raises or lowers the number of groups that are open where it stands. A pipe opens a
group where an operand is expected, and closes one elsewhere. A phrase never lowers the number,
and if it keeps it, then all its groups are closed.
-/

set_option autoImplicit false

namespace Formula

namespace Token

/-- How the token changes the number of open groups. A parenthesis that closes where an operand
is expected leaves a group without an operand, and counts for nothing. -/
def rise (expected : Bool) : Token → Int
  | openParen => 1
  | closeParen => if expected then 0 else -1
  | bar => if expected then 1 else -1
  | _ => 0

def totalRise (expected : Bool) : List Token → Int
  | [] => 0
  | token :: rest => token.rise expected + totalRise (token.expectsOperand expected) rest

def expectsAfter (expected : Bool) (tokens : List Token) : Bool :=
  tokens.foldl expectsOperand expected

@[simp] theorem totalRise_nil (expected : Bool) : totalRise expected [] = 0 := rfl

@[simp] theorem totalRise_cons (expected : Bool) (token : Token) (rest : List Token) :
    totalRise expected (token :: rest) =
      token.rise expected + totalRise (token.expectsOperand expected) rest := rfl

@[simp] theorem expectsAfter_nil (expected : Bool) : expectsAfter expected [] = expected := rfl

@[simp] theorem expectsAfter_cons (expected : Bool) (token : Token) (rest : List Token) :
    expectsAfter expected (token :: rest) = expectsAfter (token.expectsOperand expected) rest := rfl

@[simp] theorem expectsAfter_append (expected : Bool) (left right : List Token) :
    expectsAfter expected (left ++ right) = expectsAfter (expectsAfter expected left) right :=
  List.foldl_append

@[simp] theorem totalRise_append (expected : Bool) (left right : List Token) :
    totalRise expected (left ++ right) =
      totalRise expected left + totalRise (expectsAfter expected left) right := by
  induction left generalizing expected with
  | nil => simp
  | cons token rest ih => simp [ih, Int.add_assoc]

theorem totalRise_of_endOfInput (expected : Bool) {tokens : List Token}
    (h : ∀ token ∈ tokens, token = endOfInput) : totalRise expected tokens = 0 := by
  induction tokens generalizing expected with
  | nil => rfl
  | cons token rest ih =>
    obtain rfl := h token List.mem_cons_self
    have hrest := ih (expectsOperand expected endOfInput)
      fun token htoken => h token (List.mem_cons_of_mem _ htoken)
    simp [rise, hrest]

/-- Only a closing token lowers the number of open groups, and only after an operand. -/
theorem closes_of_rise_neg {expected : Bool} {token : Token} (h : token.rise expected < 0) :
    expected = false ∧ (token = closeParen ∨ token = bar) := by
  cases token <;> cases expected <;> simp_all [rise]

theorem rise_ge (expected : Bool) (token : Token) : -1 ≤ token.rise expected := by
  cases token <;> cases expected <;> simp [rise]

end Token

namespace Phrase

open Token (totalRise expectsAfter)

@[simp] theorem rise_opening (b : Bracket) : b.opening.rise true = 1 := by
  cases b <;> rfl

@[simp] theorem expectsOperand_opening (b : Bracket) : b.opening.expectsOperand true = true := by
  cases b <;> rfl

variable {r : Option Level}

theorem totalRise_nonneg (p : Phrase r) : 0 ≤ totalRise true p.tokens := by
  induction p with
  | missing => exact Int.le_refl 0
  | number | letter => exact Int.le_refl 0
  | call f argument ih => simpa [tokens, Token.rise, Token.expectsOperand] using ih
  | group b inner closer ih =>
    have hcloser : -1 ≤ totalRise (expectsAfter true inner.tokens) closer.toList := by
      cases closer with
      | none => simp
      | some token => simpa using token.rise_ge _
    simp only [tokens, Token.totalRise_cons, Token.totalRise_append, rise_opening,
      expectsOperand_opening]
    omega
  | alone level operand ih => exact ih
  | joined level op hop left right ihl ihr =>
    simp only [tokens, Token.totalRise_append, Token.totalRise_cons, Token.rise,
      Token.expectsOperand]
    omega
  | signed sign before operand ihb iho =>
    simp only [tokens, Token.totalRise_append, Token.totalRise_cons, Token.rise,
      Token.expectsOperand]
    omega

/-- Without a group left open and without a displaced operation, the groups are closed and
nothing stands before a sign. -/
theorem closed_of_totalRise {p : Phrase r} (hrise : totalRise true p.tokens = 0)
    (hdisplaced : p.displaced = []) :
    p.Closed AnyCloser ∧ (p.expr = .missing → p.tokens = []) := by
  induction p with
  | missing => exact ⟨trivial, fun _ => rfl⟩
  | number value => exact ⟨trivial, fun h => by cases h⟩
  | letter v => exact ⟨trivial, fun h => by cases h⟩
  | call f argument ih =>
    have hargument : totalRise true argument.tokens = 0 := by
      simpa [tokens, Token.rise, Token.expectsOperand] using hrise
    exact ⟨(ih hargument hdisplaced).1, fun h => by cases h⟩
  | group b inner closer ih =>
    have hinner := inner.totalRise_nonneg
    simp only [tokens, Token.totalRise_cons, Token.totalRise_append, rise_opening,
      expectsOperand_opening] at hrise
    cases closer with
    | none =>
      simp only [Option.toList_none, Token.totalRise_nil] at hrise
      omega
    | some token =>
      simp only [Option.toList_some, Token.totalRise_cons, Token.totalRise_nil] at hrise
      have hge := token.rise_ge (expectsAfter true inner.tokens)
      have hlowers : token.rise (expectsAfter true inner.tokens) < 0 := by omega
      obtain ⟨hexpected, hcloser⟩ := Token.closes_of_rise_neg hlowers
      obtain ⟨hclosed, hmissing⟩ := ih (by omega) hdisplaced
      refine ⟨⟨⟨token, rfl, hcloser⟩, hclosed⟩, ?_⟩
      intro hexpr
      have hempty : inner.tokens = [] := by
        cases b with
        | paren => exact hmissing hexpr
        | bar => cases hexpr
      -- After no tokens an operand is still expected, and nothing closes a group there.
      rw [hempty] at hexpected
      cases hexpected
  | alone level operand ih => exact ih hrise hdisplaced
  | joined level op hop left right ihl ihr =>
    have hl := left.totalRise_nonneg
    have hr := right.totalRise_nonneg
    simp only [tokens, Token.totalRise_append, Token.totalRise_cons, Token.rise,
      Token.expectsOperand] at hrise
    obtain ⟨hdl, hdr⟩ := List.append_eq_nil_iff.mp hdisplaced
    exact ⟨⟨(ihl (by omega) hdl).1, (ihr (by omega) hdr).1⟩, fun h => by cases h⟩
  | signed sign before operand ihb iho =>
    have hb := before.totalRise_nonneg
    have ho := operand.totalRise_nonneg
    simp only [tokens, Token.totalRise_append, Token.totalRise_cons, Token.rise,
      Token.expectsOperand] at hrise
    obtain ⟨hdb, hdo⟩ := List.append_eq_nil_iff.mp hdisplaced
    obtain ⟨hdb, hbefore⟩ := List.append_eq_nil_iff.mp hdb
    have hmissing : before.expr = .missing := by
      apply Expr.isMissing_iff.mp
      by_contra hne
      simp [hne] at hbefore
    exact ⟨⟨(ihb (by omega) hdb).2 hmissing, (iho (by omega) hdo).1⟩, fun h => by cases h⟩

end Phrase
end Formula
