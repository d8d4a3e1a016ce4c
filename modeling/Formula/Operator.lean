/-!
# Operators and elementary functions

The binary operators with their precedence levels, the two signs, and the named
functions of one argument. The symbols are the ones used in written formulas.
-/

set_option autoImplicit false

namespace Formula

/-- The three precedence levels, from the loosest to the tightest. -/
inductive Level where
  | sum
  | product
  | power
  deriving DecidableEq, Repr

def Level.strength : Level → Nat
  | .sum => 0
  | .product => 1
  | .power => 2

inductive Operator where
  | add
  | subtract
  | multiply
  | divide
  | power
  | remainder
  deriving DecidableEq, Repr

inductive Sign where
  | plus
  | minus
  deriving DecidableEq, Repr

inductive Elementary where
  | sine
  | cosine
  | tangent
  | arcSine
  | arcCosine
  | arcTangent
  | commonLogarithm
  | naturalLogarithm
  | squareRoot
  | cubeRoot
  deriving DecidableEq, Repr

namespace Operator

def symbol : Operator → Char
  | add => '+'
  | subtract => '-'
  | multiply => '*'
  | divide => '/'
  | power => '^'
  | remainder => '%'

def ofSymbol? : Char → Option Operator
  | '+' => some add
  | '-' => some subtract
  | '*' => some multiply
  | '/' => some divide
  | '^' => some power
  | '%' => some remainder
  | _ => none

def level : Operator → Level
  | add | subtract => .sum
  | multiply | divide | remainder => .product
  | power => .power

def sign? : Operator → Option Sign
  | add => some .plus
  | subtract => some .minus
  | _ => none

theorem ofSymbol?_symbol (op : Operator) : ofSymbol? op.symbol = some op := by
  cases op <;> rfl

theorem symbol_of_ofSymbol? {c : Char} {op : Operator} (h : ofSymbol? c = some op) :
    op.symbol = c := by
  unfold ofSymbol? at h
  split at h <;> simp_all [symbol, eq_comm]

end Operator

def Sign.operator : Sign → Operator
  | plus => .add
  | minus => .subtract

@[simp] theorem Operator.sign?_operator (sign : Sign) : sign.operator.sign? = some sign := by
  cases sign <;> rfl

theorem Operator.operator_of_sign? {op : Operator} {sign : Sign} (h : op.sign? = some sign) :
    sign.operator = op := by
  cases op <;> simp_all [Operator.sign?] <;> subst h <;> rfl

theorem Operator.level_of_sign? {op : Operator} {sign : Sign} (h : op.sign? = some sign) :
    op.level = .sum := by
  cases op <;> first | rfl | cases h

namespace Elementary

/-- Every function, in the order in which a reader tries their names. -/
def all : List Elementary :=
  [sine, cosine, tangent, arcSine, arcCosine, arcTangent, commonLogarithm, naturalLogarithm,
    squareRoot, cubeRoot]

theorem mem_all (f : Elementary) : f ∈ all := by
  cases f <;> simp [all]

def name : Elementary → String
  | sine => "sin"
  | cosine => "cos"
  | tangent => "tan"
  | arcSine => "asin"
  | arcCosine => "acos"
  | arcTangent => "atan"
  | commonLogarithm => "log"
  | naturalLogarithm => "ln"
  | squareRoot => "sqrt"
  | cubeRoot => "cbrt"

/-- The function whose name starts the text, the first of `all` if several do. -/
def leading? (text : List Char) : Option Elementary :=
  all.find? fun f => f.name.toList.isPrefixOf text

end Elementary
end Formula
