import Formula.Expr.Basic

/-!
# Walking through expressions

A visitor says what is done to a state at each kind of node. It is given the walks through the
operands, and takes them when it likes.
-/

set_option autoImplicit false

namespace Formula.Expr

structure Visitor (σ : Type) where
  missing : σ → σ
  number (value : Float) : σ → σ
  letter (v : Letter) : σ → σ
  binary (op : Operator) (left right : σ → σ) : σ → σ
  signed (sign : Sign) (operand : σ → σ) : σ → σ
  absolute (operand : σ → σ) : σ → σ
  call (f : Elementary) (argument : σ → σ) : σ → σ

def accept {σ : Type} (visitor : Visitor σ) : Expr → σ → σ
  | missing => visitor.missing
  | number value => visitor.number value
  | letter v => visitor.letter v
  | binary op left right => visitor.binary op (left.accept visitor) (right.accept visitor)
  | signed sign operand => visitor.signed sign (operand.accept visitor)
  | absolute operand => visitor.absolute (operand.accept visitor)
  | call f argument => visitor.call f (argument.accept visitor)

/-- The walk through the operands of a binary operation. -/
def walkBinary {σ : Type} (left right : σ → σ) (state : σ) : σ :=
  right (left state)

/-- Counts the nodes. -/
def counter : Visitor Nat where
  missing count := count + 1
  number _ count := count + 1
  letter _ count := count + 1
  binary _ left right count := walkBinary left right (count + 1)
  signed _ operand count := operand (count + 1)
  absolute operand count := operand (count + 1)
  call _ argument count := argument (count + 1)

/-- The number of nodes in the tree. -/
def size (e : Expr) : Nat :=
  e.accept counter 0

end Formula.Expr
