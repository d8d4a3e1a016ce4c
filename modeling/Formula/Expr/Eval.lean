import Formula.Expr.Basic
import Formula.Binary64.Basic

/-!
# The value of an expression

Values follow IEEE 754: an operation outside its domain gives a NaN or an infinity, and
evaluation never fails. A missing operand counts as zero.
-/

set_option autoImplicit false

namespace Formula

def Operator.apply : Operator → Float → Float → Float
  | add, a, b => a + b
  | subtract, a, b => a - b
  | multiply, a, b => a * b
  | divide, a, b => a / b
  | power, a, b => Float.pow a b
  | remainder, a, b => Binary64.remainder a b

def Sign.apply : Sign → Float → Float
  | plus, a => a
  | minus, a => -a

def Elementary.apply : Elementary → Float → Float
  | sine, a => Float.sin a
  | cosine, a => Float.cos a
  | tangent, a => Float.tan a
  | arcSine, a => Float.asin a
  | arcCosine, a => Float.acos a
  | arcTangent, a => Float.atan a
  | commonLogarithm, a => Float.log10 a
  | naturalLogarithm, a => Float.log a
  | squareRoot, a => Float.sqrt a
  | cubeRoot, a => Float.cbrt a

/-- The value of `e`, a short approximation. -/
def eulerNumber : Float := 2.71828

/-- The value of `p`, a short approximation of pi. -/
def circleNumber : Float := 3.14

def Letter.value (x : Float) : Letter → Float
  | .x | .y | .z => x
  | .e => eulerNumber
  | .p => circleNumber

/-- The value of an expression where the free variable is `x`. -/
def Expr.eval (x : Float) : Expr → Float
  | missing => 0
  | number value => value
  | letter v => v.value x
  | binary op left right => op.apply (left.eval x) (right.eval x)
  | signed sign operand => sign.apply (operand.eval x)
  | absolute operand => (operand.eval x).abs
  | call f argument => f.apply (argument.eval x)

end Formula
