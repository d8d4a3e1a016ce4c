import Formula.Grammar.Reading
import Formula.Expr.Infix

/-!
# Warnings

What was not understood in a formula, or only in part. A warning never stops the formula
from having a value, but the value is probably not the one that was meant.
-/

set_option autoImplicit false

namespace Formula

inductive Warning where
  | unknownCharacter (c : Char)
  /-- No part of an expression was found, so the formula is zero everywhere. -/
  | nothingRead
  /-- An operand is missing inside the expression and counts as zero. -/
  | missingOperand
  | tooDeep
  | ignored (text : String)
  | displaced (text : String)
  | unclosedGroup
  deriving DecidableEq

namespace Warning

def message : Warning → String
  | unknownCharacter c => s!"unrecognized character '{c}'"
  | nothingRead => "could not parse an expression"
  | missingOperand => "an operand is missing and counts as 0"
  | tooDeep => s!"the expression nests deeper than {deepestNesting} levels"
  | ignored text => s!"ignored trailing input '{text}'"
  | displaced text => s!"'{text}' is dropped by the sign after it"
  | unclosedGroup => "a parenthesis or pipe is not closed"

/-- The part of the input that the warning is about, if it quotes one. -/
def detail? : Warning → Option String
  | unknownCharacter c => some c.toString
  | ignored text | displaced text => some text
  | _ => none

def ofMissing (e : Expr) : List Warning :=
  if e.isMissing then [nothingRead]
  else if e.hasMissing then [missingOperand]
  else []

def ofUnconsumed (tokens : List Token) : List Warning :=
  if tokens.isEmpty then [] else [ignored (Token.spell tokens)]

/-- The warnings about a reading of tokens, in the order in which they are given. -/
def ofReading (tokens : List Token) (reading : Reading) : List Warning :=
  (tokens.filterMap Token.unknown?).map unknownCharacter ++
    ofMissing reading.expr ++
    (if reading.tooDeep then [tooDeep] else []) ++
    ofUnconsumed reading.unconsumed ++
    reading.displaced.map (displaced ·.infixText) ++
    List.replicate reading.unclosed unclosedGroup

end Warning
end Formula
