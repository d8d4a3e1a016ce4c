import Formula.Binary64.Basic

/-!
# Decimals

A decimal is a natural number of units of a power of ten. It rounds to the nearest
binary64 magnitude, and a binary64 magnitude has a shortest decimal, one on the coarsest
power of ten that has a point which rounds back.
-/

set_option autoImplicit false

namespace Formula

/-- The value `coefficient * 10 ^ exponent`. -/
structure Decimal where
  coefficient : Nat
  exponent : Int
  deriving DecidableEq

namespace Decimal

def tenTo (n : Nat) : Nat :=
  Nat.pow 10 n

/-- The nearest binary64 magnitude. -/
def magnitude : Decimal → Nat
  | ⟨c, .ofNat e⟩ => Binary64.roundUnits (c * tenTo e * Binary64.unitsInOne) 1
  | ⟨c, .negSucc e⟩ => Binary64.roundUnits (c * Binary64.unitsInOne) (tenTo (e + 1))

def toFloat (d : Decimal) : Float :=
  Binary64.ofParts false d.magnitude

/-- The two neighbours of a value among the multiples of a power of ten, the nearer one
first. The upper one goes first if both are as near. -/
def neighbours (units : Nat) (exponent : Int) : List Decimal :=
  let (num, den) := match exponent with
    | .ofNat e => (units, Binary64.unitsInOne * tenTo e)
    | .negSucc e => (units * tenTo (e + 1), Binary64.unitsInOne)
  let below := num / den
  if 2 * (num % den) < den then [⟨below, exponent⟩, ⟨below + 1, exponent⟩]
  else [⟨below + 1, exponent⟩, ⟨below, exponent⟩]

/-- An exponent whose power of ten is above the value. -/
def exponentAbove (units : Nat) : Int :=
  ((Nat.log2 units : Int) - 1073) * 30103 / 100000 + 2

/-- Every value in full: a unit is a power of five of the decimals with 1074 places. -/
def exact (magnitude : Nat) : Decimal :=
  ⟨Binary64.units magnitude * Nat.pow 5 1074, -1074⟩

/-- The shortest decimal of a finite magnitude. The search tries ever finer powers of ten
and takes the nearest point that rounds back. -/
def shortest (magnitude : Nat) : Decimal :=
  if magnitude = 0 then ⟨0, 0⟩
  else
    let units := Binary64.units magnitude
    let top := exponentAbove units
    ((List.range 21).findSome? fun (k : Nat) =>
      (neighbours units (top - k)).find? fun d => d.magnitude = magnitude).getD (exact magnitude)

end Decimal
end Formula
