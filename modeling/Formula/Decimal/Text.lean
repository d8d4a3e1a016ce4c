import Formula.Decimal.Basic

/-!
# The text of a number

`Decimal.plain` writes a decimal out positionally. `plainText` is the plain text of the
shortest decimal of a number, with neither an exponent nor a point that has no digit after
it. `preciseText` marks every number as a fraction and gives the very large and the very
small ones an exponent.
-/

set_option autoImplicit false

namespace Formula

namespace Decimal

/-- The last `places` digits of a number, with leading zeros. -/
def paddedDigits (places n : Nat) : List Char :=
  let digits := Nat.toDigits 10 n
  List.replicate (places - digits.length) '0' ++ digits

def plain : Decimal → List Char
  | ⟨c, .ofNat e⟩ => Nat.toDigits 10 (c * tenTo e)
  | ⟨c, .negSucc e⟩ =>
    Nat.toDigits 10 (c / tenTo (e + 1)) ++ '.' :: paddedDigits (e + 1) (c % tenTo (e + 1))

/-- A decimal with one digit before the point, and an exponent. -/
def scientific (d : Decimal) : List Char :=
  let digits := Nat.toDigits 10 d.coefficient
  let fraction := digits.drop 1
  digits.take 1 ++ (if fraction.isEmpty then [] else '.' :: fraction) ++
    'e' :: (toString (d.exponent + fraction.length)).toList

/-- The plain digits, with a point and a zero after a whole number. -/
def fractional (d : Decimal) : List Char :=
  if d.exponent < 0 then d.plain else d.plain ++ ['.', '0']

end Decimal

/-- The text of a number whose finite magnitudes are written by `digits`. -/
def signedText (digits : Decimal → List Char) (x : Float) : String :=
  let m := Binary64.magnitude x
  if Binary64.infinity < m then "NaN"
  else
    let body := if m = Binary64.infinity then ['i', 'n', 'f'] else digits (Decimal.shortest m)
    String.ofList (if Binary64.isNegative x then '-' :: body else body)

/-- The fewest digits that read back, written out in full. -/
def plainText (x : Float) : String :=
  signedText Decimal.plain x

/-- Whether a decimal is written without an exponent: zero, and the values from
one ten-thousandth up to ten to the sixteenth. -/
def Decimal.isModerate (d : Decimal) : Bool :=
  let leading := d.exponent + (Nat.toDigits 10 d.coefficient).length - 1
  d.coefficient = 0 || (-4 ≤ leading && leading < 16)

/-- The fewest digits that read back, always with a fraction or an exponent. -/
def preciseText (x : Float) : String :=
  signedText (fun d => if d.isModerate then d.fractional else d.scientific) x

end Formula
