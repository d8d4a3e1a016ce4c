import Mathlib.Data.List.Infix
import Formula.Grammar.Reading
import Formula.Proofs.Expr.Shape

/-!
# Phrases

A phrase is a row of tokens divided as the grammar of single operators divides it. It also
describes rows that are not well formed: a group keeps whatever token closed it, a sign keeps
what was written before it, and an operand may be missing.
-/

set_option autoImplicit false

namespace Formula

/-- The level of the operands of a level. Those of a power are factors, which have none. -/
def Level.operand : Level → Option Level
  | sum => some product
  | product => some power
  | power => none

inductive Bracket where
  | paren
  | bar
  deriving DecidableEq

namespace Bracket

def opening : Bracket → Token
  | paren => .openParen
  | bar => .bar

def closing : Bracket → Token
  | paren => .closeParen
  | bar => .bar

def wrap : Bracket → Expr → Expr
  | paren, e => e
  | bar, e => .absolute e

end Bracket

inductive Phrase : Option Level → Type where
  | missing : Phrase none
  | number (value : Float) : Phrase none
  | letter (v : Letter) : Phrase none
  | call (f : Elementary) (argument : Phrase none) : Phrase none
  | group (b : Bracket) (inner : Phrase (some .sum)) (closer : Option Token) : Phrase none
  | alone (level : Level) (operand : Phrase level.operand) : Phrase (some level)
  | joined (level : Level) (op : Operator) (h : op.level = level)
      (left right : Phrase level.operand) : Phrase (some level)
  | signed (sign : Sign) (before operand : Phrase (some .product)) : Phrase (some .sum)

namespace Phrase

variable {r : Option Level}

def tokens {r : Option Level} : Phrase r → List Token
  | missing => []
  | number value => [.number value]
  | letter v => [.letter v]
  | call f argument => .function f :: argument.tokens
  | group b inner closer => b.opening :: (inner.tokens ++ closer.toList)
  | alone _ operand => operand.tokens
  | joined _ op _ left right => left.tokens ++ .operator op :: right.tokens
  | signed sign before operand => before.tokens ++ .operator sign.operator :: operand.tokens

/-- The expression that the phrase stands for. What is written before a sign is no part of
it. -/
def expr {r : Option Level} : Phrase r → Expr
  | missing => .missing
  | number value => .number value
  | letter v => .letter v
  | call f argument => .call f argument.expr
  | group b inner _ => b.wrap inner.expr
  | alone _ operand => operand.expr
  | joined _ op _ left right => .binary op left.expr right.expr
  | signed sign _ operand => .signed sign operand.expr

/-- The operations that signs after them displace, in order. -/
def displaced {r : Option Level} : Phrase r → List Expr
  | missing | number _ | letter _ => []
  | call _ argument => argument.displaced
  | group _ inner _ => inner.displaced
  | alone _ operand => operand.displaced
  | joined _ _ _ left right => left.displaced ++ right.displaced
  | signed _ before operand =>
    before.displaced ++ (if before.expr.isMissing then [] else [before.expr]) ++
      operand.displaced

/-- How much deeper a reader gets in the phrase, at most. -/
def nesting {r : Option Level} : Phrase r → Nat
  | missing | number _ | letter _ => 0
  | call _ argument => argument.nesting + 1
  | group _ inner _ => inner.nesting + 1
  | alone _ operand => operand.nesting
  | joined _ _ _ left right => max left.nesting (right.nesting + 1)
  | signed _ before operand => max before.nesting operand.nesting

/-- Every group is closed by a token that may close it, and nothing stands before a sign. -/
def Closed (closes : Bracket → Token → Prop) {r : Option Level} : Phrase r → Prop
  | missing | number _ | letter _ => True
  | call _ argument => argument.Closed closes
  | group b inner closer => (∃ token, closer = some token ∧ closes b token) ∧ inner.Closed closes
  | alone _ operand => operand.Closed closes
  | joined _ _ _ left right => left.Closed closes ∧ right.Closed closes
  | signed _ before operand => before.tokens = [] ∧ operand.Closed closes

/-- The token closes a group, though perhaps not this one. -/
def AnyCloser (_ : Bracket) (token : Token) : Prop :=
  token = .closeParen ∨ token = .bar

def OwnCloser (b : Bracket) (token : Token) : Prop :=
  token = b.closing

/-- The operators of sums join operands that can be on their left, and all others are signs. -/
def Decided {r : Option Level} : Phrase r → Prop
  | missing | number _ | letter _ => True
  | call _ argument => argument.Decided
  | group _ inner _ => inner.Decided
  | alone _ operand => operand.Decided
  | joined level _ _ left right =>
    (level = .sum → left.expr.isMissing = false ∧ left.expr.isOperation = false) ∧
      left.Decided ∧ right.Decided
  | signed _ before operand =>
    (before.expr.isMissing = true ∨ before.expr.isOperation = true) ∧
      before.Decided ∧ operand.Decided

theorem Closed.mono {closes closes' : Bracket → Token → Prop}
    (hle : ∀ b token, closes b token → closes' b token) {p : Phrase r} (h : p.Closed closes) :
    p.Closed closes' := by
  induction p with
  | missing | number | letter => trivial
  | call f argument ih => exact ih h
  | group b inner closer ih =>
    obtain ⟨⟨token, hcloser, htoken⟩, hinner⟩ := h
    exact ⟨⟨token, hcloser, hle b token htoken⟩, ih hinner⟩
  | alone level operand ih => exact ih h
  | joined level op hop left right ihl ihr => exact ⟨ihl h.1, ihr h.2⟩
  | signed sign before operand ihb iho => exact ⟨h.1, iho h.2⟩

theorem anyCloser_of_ownCloser (b : Bracket) (token : Token) (h : OwnCloser b token) :
    AnyCloser b token := by
  cases b with
  | paren => exact .inl h
  | bar => exact .inr h

/-- A phrase whose operands are all written starts with one of them, unless it is signed. -/
theorem startsFactor_of_not_hasMissing {p : Phrase r} (hr : r ≠ some .sum)
    (h : p.expr.hasMissing = false) :
    ∃ token rest, p.tokens = token :: rest ∧ token.startsFactor = true := by
  induction p with
  | missing => simp [expr, Expr.hasMissing] at h
  | number value => exact ⟨_, _, rfl, rfl⟩
  | letter v => exact ⟨_, _, rfl, rfl⟩
  | call f argument ih => exact ⟨_, _, rfl, rfl⟩
  | group b inner closer ih => exact ⟨_, _, rfl, by cases b <;> rfl⟩
  | alone level operand ih => exact ih (by cases level <;> simp_all [Level.operand]) h
  | joined level op hop left right ihl ihr =>
    have hleft : left.expr.hasMissing = false := by
      simp only [expr, Expr.hasMissing, Bool.or_eq_false_iff] at h
      exact h.1
    obtain ⟨token, rest, htokens, hstart⟩ :=
      ihl (by cases level <;> simp_all [Level.operand]) hleft
    exact ⟨token, rest ++ .operator op :: right.tokens, by simp [tokens, htokens], hstart⟩
  | signed sign before operand ihb iho => exact absurd rfl hr

theorem number_mem_tokens {p : Phrase r} {value : Float} (h : value ∈ p.expr.numbers) :
    .number value ∈ p.tokens := by
  induction p with
  | missing | letter => simp [expr, Expr.numbers] at h
  | number v => simpa [expr, Expr.numbers, tokens] using h
  | call f argument ih => exact List.mem_cons_of_mem _ (ih h)
  | group b inner closer ih =>
    have hinner : value ∈ inner.expr.numbers := by cases b <;> exact h
    exact List.mem_cons_of_mem _ (List.mem_append_left _ (ih hinner))
  | alone level operand ih => exact ih h
  | joined level op hop left right ihl ihr =>
    rcases List.mem_append.mp h with h | h
    · exact List.mem_append_left _ (ihl h)
    · exact List.mem_append_right _ (List.mem_cons_of_mem _ (ihr h))
  | signed sign before operand ihb iho =>
    exact List.mem_append_right _ (List.mem_cons_of_mem _ (iho h))

/-- What a reader decides about the signs shows in the expression. -/
theorem sumsDecided_expr {p : Phrase r} (h : p.Decided) : p.expr.SumsDecided := by
  induction p with
  | missing | number | letter => trivial
  | call f argument ih => exact ih h
  | group b inner closer ih => cases b <;> exact ih h
  | alone level operand ih => exact ih h
  | joined level op hop left right ihl ihr =>
    subst hop
    exact ⟨h.1, ihl h.2.1, ihr h.2.2⟩
  | signed sign before operand ihb iho => exact iho h.2.2

end Phrase
end Formula
