import Formula.Decimal.Numeral

/-!
# Numbers given to the command

The whole text has to be a number. A real number may have a sign and an exponent, or be an
infinity or a NaN by name; a count may have a plus sign and is bounded.
-/

set_option autoImplicit false

namespace Formula.Command

inductive LiteralError where
  | emptyFloat
  | invalidFloat
  | emptyCount
  | invalidDigit
  | tooLarge
  deriving DecidableEq

def LiteralError.message : LiteralError → String
  | emptyFloat => "cannot parse float from empty string"
  | invalidFloat => "invalid float literal"
  | emptyCount => "cannot parse integer from empty string"
  | invalidDigit => "invalid digit found in string"
  | tooLarge => "number too large to fit in target type"

namespace Literal

def sign : List Char → Bool × List Char
  | '-' :: rest => (true, rest)
  | '+' :: rest => (false, rest)
  | text => (false, text)

def isExponentMark (c : Char) : Bool :=
  c = 'e' || c = 'E'

def exponent? (text : List Char) : Option Int :=
  let (negative, digits) := sign text
  if digits.isEmpty || !digits.all Char.isDigit then none
  else
    let n : Int := Numeral.digitsValue digits
    some (if negative then -n else n)

/-- The exponent of a numeral of the given length, held where every further power of ten
gives an infinity or a zero anyway. -/
def clampExponent (length : Nat) (exponent : Int) : Int :=
  max (-(length + 400)) (min 400 exponent)

/-- The magnitude of a decimal with an optional exponent. -/
def decimalMagnitude? (text : List Char) : Option Nat :=
  let numeral := text.takeWhile fun c => !isExponentMark c
  let shift := match text.dropWhile fun c => !isExponentMark c with
    | [] => some 0
    | _ :: rest => exponent? rest
  match Numeral.decimal? numeral, shift with
  | some d, some e =>
    let exponent := clampExponent numeral.length (d.exponent + e)
    some (Decimal.magnitude ⟨d.coefficient, exponent⟩)
  | _, _ => none

def magnitude? (text : List Char) : Option Nat :=
  let lower := text.map Char.toLower
  if lower = "inf".toList || lower = "infinity".toList then some Binary64.infinity
  else if lower = "nan".toList then some (Binary64.magnitude Binary64.nan)
  else decimalMagnitude? text

def float? (text : String) : Except LiteralError Float :=
  if text.isEmpty then .error .emptyFloat
  else
    let (negative, rest) := sign text.toList
    match magnitude? rest with
    | some m => .ok (Binary64.ofParts negative m)
    | none => .error .invalidFloat

/-- Appends digits to a number that has to stay below a bound. -/
def appendDigits (bound : Nat) : Nat → List Char → Except LiteralError Nat
  | n, [] => .ok n
  | n, c :: rest =>
    let next := 10 * n + (c.toNat - '0'.toNat)
    if !c.isDigit then .error .invalidDigit
    else if bound ≤ next then .error .tooLarge
    else appendDigits bound next rest

/-- The count below a bound that a text is. -/
def count? (bound : Nat) (text : String) : Except LiteralError Nat :=
  match text.toList with
  | [] => .error .emptyCount
  | ['+'] => .error .invalidDigit
  | '+' :: digits => appendDigits bound 0 digits
  | digits => appendDigits bound 0 digits

end Literal
end Formula.Command
