import Formula.Token.Lexer
import Formula.Warning
import Formula.Expr.Eval

/-!
# Compiled formulas

A compiled formula is the expression that a text was understood as, with the warnings
about it. Every text compiles.
-/

set_option autoImplicit false

namespace Formula

structure Compiled where
  expr : Expr
  warnings : List Warning
  deriving DecidableEq

namespace Compiled

def ofText (grammar : Grammar) (text : String) : Compiled :=
  let tokens := Token.ofText text
  let reading := grammar.read tokens
  { expr := reading.expr, warnings := Warning.ofReading tokens reading }

/-- The text of the formula as it was understood. -/
def infixText (f : Compiled) : String :=
  f.expr.infixText

/-- The value of the formula where the free variable is `x`. -/
def eval (f : Compiled) (x : Float) : Float :=
  f.expr.eval x

end Compiled
end Formula
