import Formula.Token
import Formula.Decimal.Text
import Formula.Text.Blank

/-!
# From tokens to text

`spell` writes tokens in the usual spacing: blanks around the operators that join two
operands, except the power, and none around signs.
-/

set_option autoImplicit false

namespace Formula.Token

def text : Token → String
  | number value => plainText value
  | letter v => v.symbol.toString
  | operator op => op.symbol.toString
  | function f => f.name
  | openParen => "("
  | closeParen => ")"
  | bar => "|"
  | endOfInput => ""
  | unknown c => c.toString

/-- Whether an operand is expected after the token, if one was expected before it or not. -/
def expectsOperand (before : Bool) : Token → Bool
  | operator _ | openParen | function _ => true
  | bar => before
  | _ => false

/-- The token with the blanks that it has when an operand is expected, or is not. -/
def spaced (expected : Bool) (token : Token) : String :=
  match token, expected with
  | operator .power, _ => token.text
  | operator _, false => " " ++ token.text ++ " "
  | _, _ => token.text

/-- The tokens in a row, each spaced by whether an operand is expected before it. -/
def joined (expected : Bool) : List Token → List Char
  | [] => []
  | token :: rest =>
    (token.spaced expected).toList ++ joined (token.expectsOperand expected) rest

/-- The written form of tokens, with no blank at its end. -/
def spell (tokens : List Token) : String :=
  String.ofList (Text.trimRight (joined true tokens))

end Formula.Token
