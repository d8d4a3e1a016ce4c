import Formula.Grammar.Cursor

/-!
# The grammar of single operators

Every level takes at most one operator:

    expression ::= term [('+' | '-') term]
    term       ::= power [('*' | '/' | '%') power]
    power      ::= factor ['^' factor]
    factor     ::= number | letter | function factor
                 | '(' expression ')' | '|' expression '|' | nothing

A sign is the operator of a sum without a left operand. It also displaces an operation that
stands in the place of the left operand. Whatever token comes next closes a group.
-/

set_option autoImplicit false

namespace Formula.Single

/-- An operand, or two that an operator of the level joins. -/
def joined (level : Level) (operand : Production) : Production := fun c =>
  let (left, c) := operand c
  match c.peekOperator? level with
  | none => (left, c)
  | some op =>
    let (right, c) := operand c.advance
    (.binary op left right, c)

def powerOf (factor : Production) : Production :=
  joined .power factor

def termOf (factor : Production) : Production :=
  joined .product (powerOf factor)

/-- The operand of a sign, which takes the place of what was read before the sign. -/
def signedTerm (factor : Production) (before : Expr) (op : Operator) : Production := fun c =>
  let c := c.note (.sign op)
  let (operand, c) := termOf factor (if before.isMissing then c else c.displace before)
  match op.sign? with
  | some sign => (.signed sign operand, c)
  | none => (operand, c)

def expressionOf (factor : Production) : Production := fun c =>
  let (first, c) := termOf factor c
  match c.peekOperator? .sum with
  | none => (first, c)
  | some op =>
    if first.isMissing || first.isOperation then signedTerm factor first op c.advance
    else
      let (second, c) := termOf factor c.advance
      (.binary op first second, c)

/-- Reads a factor among at most the given number of tokens. -/
def factorWithin (limit : Option Nat) : Nat → Production
  | 0 => fun c => (.missing, c)
  | size + 1 => fun c =>
    let group := (expressionOf (factorWithin limit size)).nested limit
    match c.tokens with
    | .number value :: _ => (.number value, c.advance.note (.factor (.number value)))
    | .letter v :: _ => (.letter v, c.advance.note (.factor (.letter v)))
    | .openParen :: _ =>
      let (e, c) := group (c.advance.note (.factor .openParen))
      (e, c.advance)
    | .function f :: _ =>
      let (e, c) := (factorWithin limit size).nested limit (c.advance.note (.factor (.function f)))
      (.call f e, c)
    | .bar :: _ =>
      let (e, c) := group (c.advance.note (.factor .bar))
      (.absolute e, c.advance)
    | _ => (.missing, c)

def factor (limit : Option Nat) : Production := fun c =>
  factorWithin limit c.tokens.length c

def power (limit : Option Nat) : Production := fun c =>
  powerOf (factorWithin limit c.tokens.length) c

def term (limit : Option Nat) : Production := fun c =>
  termOf (factorWithin limit c.tokens.length) c

def expression (limit : Option Nat) : Production := fun c =>
  expressionOf (factorWithin limit c.tokens.length) c

end Formula.Single
