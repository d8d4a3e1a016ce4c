import Formula.Operator

/-!
# Tokens

The units of a written formula.
-/

set_option autoImplicit false

namespace Formula

/-- A one-letter name. `x`, `y` and `z` all stand for the free variable of the formula,
`e` and `p` for constants. -/
inductive Letter where
  | x
  | y
  | z
  | e
  | p
  deriving DecidableEq, Repr

namespace Letter

def symbol : Letter → Char
  | x => 'x'
  | y => 'y'
  | z => 'z'
  | e => 'e'
  | p => 'p'

def ofSymbol? : Char → Option Letter
  | 'x' => some x
  | 'y' => some y
  | 'z' => some z
  | 'e' => some e
  | 'p' => some p
  | _ => none

theorem ofSymbol?_symbol (v : Letter) : ofSymbol? v.symbol = some v := by
  cases v <;> rfl

theorem symbol_of_ofSymbol? {c : Char} {v : Letter} (h : ofSymbol? c = some v) :
    v.symbol = c := by
  unfold ofSymbol? at h
  split at h <;> simp_all [symbol, eq_comm]

end Letter

inductive Token where
  | number (value : Float)
  | letter (v : Letter)
  | operator (op : Operator)
  | function (f : Elementary)
  | openParen
  | closeParen
  | bar
  | endOfInput
  | unknown (c : Char)
  deriving DecidableEq

namespace Token

/-- The token of a character that starts neither a numeral nor a function name. -/
def ofChar (c : Char) : Token :=
  match Letter.ofSymbol? c, Operator.ofSymbol? c with
  | some v, _ => letter v
  | none, some op => operator op
  | none, none =>
    match c with
    | '(' => openParen
    | ')' => closeParen
    | '|' => bar
    | c => unknown c

/-- Whether the token can begin a factor, the tightest unit of a formula. -/
def startsFactor : Token → Bool
  | number _ | letter _ | function _ | openParen | bar => true
  | _ => false

def unknown? : Token → Option Char
  | unknown c => some c
  | _ => none

end Token
end Formula
