import Formula.Expr.Infix

/-!
# The shape of expressions

Measures and properties of trees that do not depend on how the trees were read.
-/

set_option autoImplicit false

namespace Formula.Expr

/-- The numbers in the leaves, from left to right. -/
def numbers : Expr → List Float
  | missing | letter _ => []
  | number value => [value]
  | binary _ left right => left.numbers ++ right.numbers
  | signed _ operand | absolute operand => operand.numbers
  | call _ argument => argument.numbers

def hasAbsolute : Expr → Bool
  | missing | number _ | letter _ => false
  | binary _ left right => left.hasAbsolute || right.hasAbsolute
  | signed _ operand => operand.hasAbsolute
  | absolute _ => true
  | call _ argument => argument.hasAbsolute

/-- The greatest number of operations and calls on a path from the root to a leaf. -/
def operationHeight : Expr → Nat
  | missing | number _ | letter _ => 0
  | binary _ left right => max left.operationHeight right.operationHeight + 1
  | signed _ operand | absolute operand => operand.operationHeight + 1
  | call _ argument => argument.operationHeight + 1

/-- What the nodes on a path weigh: a leaf, a sign, and an operator whose left operand the path
goes on with. Every other node weighs one. -/
structure PathWeights where
  leaf : Nat
  sign : Nat
  left : Nat

/-- The weight of a heaviest path from the root to a leaf. -/
def pathWeight (w : PathWeights) : Expr → Nat
  | missing | number _ | letter _ => w.leaf
  | binary _ left right => max (left.pathWeight w + w.left) (right.pathWeight w + 1)
  | signed _ operand => operand.pathWeight w + w.sign
  | absolute operand => operand.pathWeight w + 1
  | call _ argument => argument.pathWeight w + 1

/-- The number of nodes on a longest path from the root to a leaf. -/
def height : Expr → Nat :=
  pathWeight { leaf := 1, sign := 1, left := 1 }

/-- The greatest number of operations and calls on a path, signs not counted. -/
def unsignedHeight : Expr → Nat :=
  pathWeight { leaf := 0, sign := 0, left := 1 }

/-- The same where an operator counts only for what is on its right. -/
def rightHeight : Expr → Nat :=
  pathWeight { leaf := 0, sign := 0, left := 0 }

/-- Every left operand of a sum is a value or a call. -/
def SumsDecided : Expr → Prop
  | missing | number _ | letter _ => True
  | binary op left right =>
    (op.level = .sum → left.isMissing = false ∧ left.isOperation = false) ∧
      left.SumsDecided ∧ right.SumsDecided
  | signed _ operand | absolute operand => operand.SumsDecided
  | call _ argument => argument.SumsDecided

theorem unsignedHeight_binary (op : Operator) (left right : Expr) :
    (binary op left right).unsignedHeight =
      max left.unsignedHeight right.unsignedHeight + 1 := by
  simp only [unsignedHeight, pathWeight]
  omega

theorem isMissing_iff {e : Expr} : e.isMissing = true ↔ e = missing := by
  cases e <;> simp [isMissing]

theorem bar_notMem_parensIf (condition : Bool) {tokens : List Token} (h : .bar ∉ tokens) :
    Token.bar ∉ parensIf condition tokens := by
  cases condition <;> simp [parensIf, inParens, h]

theorem bar_notMem_infixTokens {e : Expr} (h : e.hasAbsolute = false) :
    Token.bar ∉ e.infixTokens := by
  induction e with
  | missing | number | letter => simp [infixTokens]
  | binary op left right ihl ihr =>
    simp only [hasAbsolute, Bool.or_eq_false_iff] at h
    have hl := bar_notMem_parensIf (left.needsParensUnder op) (ihl h.1)
    have hr := bar_notMem_parensIf (right.needsParensUnder op) (ihr h.2)
    simp [infixTokens, hl, hr]
  | signed sign operand ih =>
    have ho := bar_notMem_parensIf operand.needsParensAfterSign (ih h)
    simp [infixTokens, ho]
  | absolute operand ih => simp [hasAbsolute] at h
  | call f argument ih => simp [infixTokens, inParens, ih h]

end Formula.Expr
