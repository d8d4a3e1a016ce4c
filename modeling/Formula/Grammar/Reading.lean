import Formula.Grammar.Single
import Formula.Grammar.Chained

/-!
# Reading tokens

Every token list can be read. What the reader could not use, it reports.
-/

set_option autoImplicit false

namespace Formula

/-- How operators of one level that follow each other are read. -/
inductive Grammar where
  /-- Each level takes one operator and leaves the others over. -/
  | single
  /-- The operators of a level are folded from the left, and powers from the right. -/
  | chained
  deriving DecidableEq

/-- How deeply groups, calls, signs and chains may nest. -/
def deepestNesting : Nat := 256

/-- An expression, and what its reader could not use. -/
structure Reading where
  expr : Expr
  /-- The tokens after the expression, without the end of input. -/
  unconsumed : List Token
  /-- The groups that their own closing token did not close. Only chains are counted. -/
  unclosed : Nat
  /-- Whether the input nests too deeply, and its innermost part counts as missing. -/
  tooDeep : Bool
  displaced : List Expr
  deriving DecidableEq

namespace Grammar

def expression : Grammar → Option Nat → Production
  | single => Single.expression
  | chained => Chained.expression

/-- The expression at the start of the tokens, and the cursor after it. -/
def run (grammar : Grammar) (limit : Option Nat) (tokens : List Token) : Expr × Cursor :=
  grammar.expression limit { tokens }

/-- Reads tokens with a limit on the depth, or with none. -/
def readWithin (grammar : Grammar) (limit : Option Nat) (tokens : List Token) : Reading :=
  let (expr, c) := grammar.run limit tokens
  { expr
    unconsumed := c.tokens.filter (· ≠ .endOfInput)
    unclosed := c.unclosed
    tooDeep := c.tooDeep
    displaced := c.displaced }

def read (grammar : Grammar) (tokens : List Token) : Reading :=
  grammar.readWithin (some deepestNesting) tokens

def steps (grammar : Grammar) (tokens : List Token) : List Step :=
  (grammar.run (some deepestNesting) tokens).2.steps.reverse

end Grammar
end Formula
