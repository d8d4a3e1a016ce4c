import Formula.Expr.Basic
import Formula.Token.Text

/-!
# Expressions in infix notation

`infixTokens` writes a tree as tokens, with the parentheses that keep its shape when the
tokens are read with one operator a level: around an operand that binds no tighter than
its operator, and around signed operands. An argument always has parentheses.
-/

set_option autoImplicit false

namespace Formula.Expr

def isSigned : Expr → Bool
  | signed .. => true
  | _ => false

def isSum : Expr → Bool
  | binary op .. => op.level = .sum
  | _ => false

/-- Whether an operand of a binary operator is written in parentheses. -/
def needsParensUnder (parent : Operator) : Expr → Bool
  | binary op .. => op.level.strength ≤ parent.level.strength
  | e => e.isSigned

def needsParensAfterSign (e : Expr) : Bool :=
  e.isSum || e.isSigned

def inParens (tokens : List Token) : List Token :=
  .openParen :: tokens ++ [.closeParen]

def parensIf (condition : Bool) (tokens : List Token) : List Token :=
  if condition then inParens tokens else tokens

/-- The tokens of the infix form. A missing operand has none. -/
def infixTokens : Expr → List Token
  | missing => []
  | number value => [.number value]
  | letter v => [.letter v]
  | binary op left right =>
    parensIf (left.needsParensUnder op) left.infixTokens ++
      .operator op :: parensIf (right.needsParensUnder op) right.infixTokens
  | signed sign operand =>
    .operator sign.operator :: parensIf operand.needsParensAfterSign operand.infixTokens
  | absolute operand => .bar :: operand.infixTokens ++ [.bar]
  | call f argument => .function f :: inParens argument.infixTokens

def infixText (e : Expr) : String :=
  Token.spell e.infixTokens

end Formula.Expr
