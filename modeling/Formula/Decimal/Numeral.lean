import Formula.Decimal.Basic

/-!
# Numerals

A numeral is a run of digits with at most one point and at least one digit. A run with
more points is worth its longest leading numeral.
-/

set_option autoImplicit false

namespace Formula.Numeral

/-- A character that a run of numerals is made of. -/
def isPart (c : Char) : Bool :=
  c.isDigit || c = '.'

def digitsValue (digits : List Char) : Nat :=
  digits.foldl (fun n c => 10 * n + (c.toNat - '0'.toNat)) 0

def decimal? (text : List Char) : Option Decimal :=
  let whole := text.takeWhile Char.isDigit
  match text.dropWhile Char.isDigit with
  | [] => if whole.isEmpty then none else some ⟨digitsValue whole, 0⟩
  | c :: part =>
    if c = '.' && part.all Char.isDigit && !(whole.isEmpty && part.isEmpty) then
      some ⟨digitsValue (whole ++ part), -(part.length : Int)⟩
    else none

def value? (text : List Char) : Option Float :=
  (decimal? text).map Decimal.toFloat

/-- The longest of the leading parts of a text, up to the given length, that is a numeral. -/
def longestValue? (text : List Char) : Nat → Option Float
  | 0 => none
  | length + 1 =>
    match value? (text.take (length + 1)) with
    | some value => some value
    | none => longestValue? text length

/-- The value of a run of digits and points: that of its longest leading numeral, and zero
if it starts with none. -/
def runValue (run : List Char) : Float :=
  (longestValue? run run.length).getD (Binary64.ofParts false 0)

end Formula.Numeral
