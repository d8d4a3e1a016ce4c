import Formula.Token

/-!
# Expressions

The trees that formulas stand for. A missing operand is an expression of its own, so
every token list has a tree.
-/

set_option autoImplicit false

namespace Formula

inductive Expr where
  /-- The place of an operand that was not written. -/
  | missing
  | number (value : Float)
  | letter (v : Letter)
  | binary (op : Operator) (left right : Expr)
  | signed (sign : Sign) (operand : Expr)
  | absolute (operand : Expr)
  | call (f : Elementary) (argument : Expr)
  deriving DecidableEq

namespace Expr

def isMissing : Expr → Bool
  | missing => true
  | _ => false

/-- Whether the tree is an operator applied to operands, and neither a value nor a call. -/
def isOperation : Expr → Bool
  | binary .. | signed .. | absolute _ => true
  | _ => false

def hasMissing : Expr → Bool
  | missing => true
  | number _ | letter _ => false
  | binary _ left right => left.hasMissing || right.hasMissing
  | signed _ operand | absolute operand => operand.hasMissing
  | call _ argument => argument.hasMissing

/-- Whether two trees have the same shape and numbers that compare equal: a NaN differs
from itself, and the two zeros are equal. -/
def sameAs : Expr → Expr → Bool
  | missing, missing => true
  | number a, number b => a == b
  | letter v, letter w => v = w
  | binary op l r, binary op' l' r' => op = op' && l.sameAs l' && r.sameAs r'
  | signed s e, signed s' e' => s = s' && e.sameAs e'
  | absolute e, absolute e' => e.sameAs e'
  | call f e, call f' e' => f = f' && e.sameAs e'
  | _, _ => false

end Expr
end Formula
