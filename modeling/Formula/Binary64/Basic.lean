/-!
# Binary64 as sign and magnitude

The 64 bits of a number split into a sign and a magnitude. The magnitudes, read as
natural numbers, are ordered as the values they stand for. Every finite value is a
natural number of units, the least positive value, so values are computed with exactly,
in `Nat`. `roundUnits` goes the other way: it rounds a quotient of units to the nearest
magnitude, ties to even.
-/

set_option autoImplicit false

namespace Formula.Binary64

def twoTo (n : Nat) : Nat :=
  Nat.pow 2 n

def signWeight : Nat := twoTo 63

/-- The weight of the last exponent bit, and the number of significands of one exponent. -/
def exponentWeight : Nat := twoTo 52

/-- The magnitude of infinity; every larger one belongs to a NaN. -/
def infinity : Nat := 0x7ff * exponentWeight

def unitsInOne : Nat := twoTo 1074

def isNegative (x : Float) : Bool :=
  signWeight ≤ x.toBits.toNat

def magnitude (x : Float) : Nat :=
  x.toBits.toNat % signWeight

def ofParts (negative : Bool) (magnitude : Nat) : Float :=
  Float.ofBits (UInt64.ofNat (if negative then signWeight + magnitude else magnitude))

def nan : Float :=
  ofParts false (infinity + twoTo 51)

/-- The units in the finite value of this magnitude. -/
def units (magnitude : Nat) : Nat :=
  if magnitude < exponentWeight then magnitude
  else
    (exponentWeight + magnitude % exponentWeight) * twoTo (magnitude / exponentWeight - 1)

/-- The natural number nearest to a quotient, a tie going to the even one. -/
def roundToEven (num den : Nat) : Nat :=
  let floor := num / den
  let excess := 2 * (num % den)
  if excess < den then floor
  else if den < excess then floor + 1
  else floor + floor % 2

/-- The magnitude nearest to a quotient of units. A carry out of the significand
moves into the exponent, and out of the exponent into infinity. -/
def roundUnits (num den : Nat) : Nat :=
  let shift := Nat.log2 (num / den) - 52
  min infinity (shift * exponentWeight + roundToEven num (den * twoTo shift))

/-- The remainder of a division whose quotient is rounded toward zero. It is exact and
has the sign of the dividend. -/
def remainder (x y : Float) : Float :=
  if infinity ≤ magnitude x || infinity < magnitude y || magnitude y = 0 then nan
  else if magnitude y = infinity then x
  else
    ofParts (isNegative x) (roundUnits (units (magnitude x) % units (magnitude y)) 1)

end Formula.Binary64
