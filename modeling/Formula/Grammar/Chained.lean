import Formula.Grammar.Cursor

/-!
# The grammar of chains

Operators of one level are folded from the left, powers from the right, and a sign may
stand wherever an operand may:

    expression ::= [sign] term {('+' | '-') term}
    term       ::= power {('*' | '/' | '%') power}
    power      ::= factor ['^' power]
    factor     ::= number | letter | function factor | sign power
                 | '(' expression ')' | '|' expression '|' | nothing

Only its own closing token closes a group, which counts as unclosed without it.
-/

set_option autoImplicit false

namespace Formula.Chained

/-- Joins the operands that follow to the expression read so far, among at most the given
number of tokens. -/
def foldWithin (limit : Option Nat) (level : Level) (operand : Production) :
    Nat → Expr → Production
  | 0, left => fun c => (left, c)
  | size + 1, left => fun c =>
    match c.takeFold limit level with
    | (none, c) => (left, c)
    | (some op, c) =>
      let (right, c) := operand c
      foldWithin limit level operand size (.binary op left right) c

/-- Joins the operands that follow to the expression read so far, and gives back the depth
that the links of the chain took. -/
def fold (limit : Option Nat) (level : Level) (operand : Production) (first : Expr) :
    Production := fun c =>
  let (e, after) := foldWithin limit level operand c.tokens.length first c
  (e, { after with depth := c.depth })

/-- Reads a power among at most the given number of tokens. -/
def powerWithin (limit : Option Nat) (factor : Production) : Nat → Production
  | 0 => factor
  | size + 1 => fun c =>
    let (base, c) := factor c
    match c.takeFold limit .power with
    | (none, c) => (base, c)
    | (some op, next) =>
      let (exponent, after) := powerWithin limit factor size next
      (.binary op base exponent, { after with depth := c.depth })

def powerOf (limit : Option Nat) (factor : Production) : Production := fun c =>
  powerWithin limit factor c.tokens.length c

def termOf (limit : Option Nat) (factor : Production) : Production := fun c =>
  let (first, c) := powerOf limit factor c
  fold limit .product (powerOf limit factor) first c

def peekSign? (c : Cursor) : Option Sign :=
  (c.peekOperator? .sum).bind Operator.sign?

def expressionOf (limit : Option Nat) (factor : Production) : Production := fun c =>
  let (first, c) := match peekSign? c with
    | some sign =>
      let (e, c) := termOf limit factor c.advance
      (.signed sign e, c)
    | none => termOf limit factor c
  fold limit .sum (termOf limit factor) first c

/-- Takes the closing token of a group, or counts the group as unclosed. -/
def close (closing : Token) (c : Cursor) : Cursor :=
  if c.tokens.head? = some closing then c.advance
  else { c with unclosed := c.unclosed + 1 }

/-- Reads a factor among at most the given number of tokens. -/
def factorWithin (limit : Option Nat) : Nat → Production
  | 0 => fun c => (.missing, c)
  | size + 1 => fun c =>
    let group := (expressionOf limit (factorWithin limit size)).nested limit
    match c.tokens with
    | .operator op :: _ =>
      match op.sign? with
      | some sign =>
        let (e, c) := (powerOf limit (factorWithin limit size)).nested limit c.advance
        (.signed sign e, c)
      | none => (.missing, c)
    | .number value :: _ => (.number value, c.advance.note (.factor (.number value)))
    | .letter v :: _ => (.letter v, c.advance.note (.factor (.letter v)))
    | .openParen :: _ =>
      let (e, c) := group (c.advance.note (.factor .openParen))
      (e, close .closeParen c)
    | .function f :: _ =>
      let (e, c) := (factorWithin limit size).nested limit (c.advance.note (.factor (.function f)))
      (.call f e, c)
    | .bar :: _ =>
      let (e, c) := group (c.advance.note (.factor .bar))
      (.absolute e, close .bar c)
    | _ => (.missing, c)

def factor (limit : Option Nat) : Production := fun c =>
  factorWithin limit c.tokens.length c

def power (limit : Option Nat) : Production := fun c =>
  powerOf limit (factorWithin limit c.tokens.length) c

def term (limit : Option Nat) : Production := fun c =>
  termOf limit (factorWithin limit c.tokens.length) c

def expression (limit : Option Nat) : Production := fun c =>
  expressionOf limit (factorWithin limit c.tokens.length) c

end Formula.Chained
