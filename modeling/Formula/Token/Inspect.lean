import Formula.Token
import Formula.Decimal.Text
import Formula.Text.Quoted

/-!
# Tokens by kind

A token written with its kind, so that tokens that look alike in a formula can be told
apart.
-/

set_option autoImplicit false

namespace Formula

def Operator.kindName : Operator → String
  | add => "Add"
  | subtract => "Subtract"
  | multiply => "Multiply"
  | divide => "Divide"
  | power => "Exponentiate"
  | remainder => "Modulo"

def Letter.kindName : Letter → String
  | x => "X"
  | y => "Y"
  | z => "Z"
  | e => "E"
  | p => "P"

def Elementary.kindName : Elementary → String
  | sine => "Sine"
  | cosine => "Cosine"
  | tangent => "Tangent"
  | arcSine => "ArcSine"
  | arcCosine => "ArcCosine"
  | arcTangent => "ArcTangent"
  | commonLogarithm => "CommonLogarithm"
  | naturalLogarithm => "NaturalLogarithm"
  | squareRoot => "SquareRoot"
  | cubeRoot => "CubeRoot"

def Token.inspect : Token → String
  | number value => s!"Number({preciseText value})"
  | letter v => s!"Variable({v.kindName})"
  | operator op => s!"Operator({op.kindName})"
  | function f => s!"Function({f.kindName})"
  | openParen => "LeftParentheses"
  | closeParen => "RightParentheses"
  | bar => "Pipe"
  | endOfInput => "EndOfInput"
  | unknown c => s!"Invalid({Text.quoted c})"

end Formula
