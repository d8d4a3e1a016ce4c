import Formula.Token
import Formula.Decimal.Numeral

/-!
# From text to tokens

Spaces separate lexemes. A lexeme is the longest run of digits and points, or else a
function name, or else a single character. Every text has tokens, and the last of them
is the only end of input.
-/

set_option autoImplicit false

namespace Formula.Token

def scan : List Char → List Token
  | [] => [endOfInput]
  | c :: rest =>
    if c = ' ' then scan rest
    else if Numeral.isPart c then
      number (Numeral.runValue (c :: rest.takeWhile Numeral.isPart)) ::
        scan (rest.dropWhile Numeral.isPart)
    else
      match Elementary.leading? (c :: rest) with
      | some f => function f :: scan (rest.drop (f.name.length - 1))
      | none => ofChar c :: scan rest
termination_by text => text.length
decreasing_by
  all_goals simp only [List.length_cons, List.length_drop]
  · omega
  · exact Nat.lt_succ_of_le (List.dropWhile_suffix _).length_le
  · omega
  · omega

def ofText (text : String) : List Token :=
  scan text.toList

end Formula.Token
