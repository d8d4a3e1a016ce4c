import Formula.Expr.Basic

/-!
# The position of a reader

A cursor holds the tokens that are left, how deeply the reader is nested, and what it has
had to report. A production reads an expression at a cursor and leaves the cursor after it.
`nested` and `takeFold` charge the depth, and a limit on the depth stops them.
-/

set_option autoImplicit false

namespace Formula

inductive Step where
  | factor (token : Token)
  | sign (op : Operator)
  | tooDeep
  deriving DecidableEq

structure Cursor where
  tokens : List Token
  depth : Nat := 0
  /-- The depth that the reader has gone down to so far. -/
  deepest : Nat := 0
  /-- Whether the limit on the depth has stopped the reader. -/
  tooDeep : Bool := false
  /-- The groups that their own closing token did not close. -/
  unclosed : Nat := 0
  /-- The operations that a sign after them has displaced, in order. -/
  displaced : List Expr := []
  /-- The steps so far, the latest first. -/
  steps : List Step := []

abbrev Production := Cursor → Expr × Cursor

namespace Cursor

def note (c : Cursor) (step : Step) : Cursor :=
  { c with steps := step :: c.steps }

def advance (c : Cursor) : Cursor :=
  { c with tokens := c.tokens.tail }

def peekOperator? (c : Cursor) (level : Level) : Option Operator :=
  match c.tokens with
  | .operator op :: _ => if op.level = level then some op else none
  | _ => none

def descend (c : Cursor) : Cursor :=
  { c with depth := c.depth + 1, deepest := max c.deepest (c.depth + 1) }

def ascend (c : Cursor) : Cursor :=
  { c with depth := c.depth - 1 }

/-- Whether the limit, if there is one, allows no further level. -/
def isFull (c : Cursor) (limit : Option Nat) : Bool :=
  limit.any fun most => most ≤ c.depth

/-- Reports the limit on the depth. Only the first report is a step. -/
def reportDepth (c : Cursor) : Cursor :=
  { (if c.tooDeep then c else c.note .tooDeep) with tooDeep := true }

def displace (c : Cursor) (e : Expr) : Cursor :=
  { c with displaced := c.displaced ++ [e] }

/-- The operator of the level that comes next in a chain. Each link of a chain nests the
expression read so far one level deeper. -/
def takeFold (limit : Option Nat) (level : Level) (c : Cursor) : Option Operator × Cursor :=
  match c.peekOperator? level with
  | none => (none, c)
  | some op =>
    if c.isFull limit then (none, { c with tooDeep := true })
    else (some op, c.advance.descend)

end Cursor

/-- Reads one level deeper, or nothing at the limit. -/
def Production.nested (limit : Option Nat) (read : Production) : Production := fun c =>
  if c.isFull limit then (.missing, c.reportDepth)
  else
    let (e, c) := read c.descend
    (e, c.ascend)

end Formula
