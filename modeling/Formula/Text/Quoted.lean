import Formula.Text.Glyph

/-!
# Quoted characters

A character between apostrophes, so that every one can be told from the others: the
apostrophe and the backslash have a backslash before them, a few controls have a letter,
and what has no glyph is given by its code point.
-/

set_option autoImplicit false

namespace Formula.Text

/-- The code point in hexadecimal digits, between braces. -/
def codePoint (c : Char) : String :=
  "\\u\x7b" ++ String.ofList (Nat.toDigits 16 c.toNat) ++ "\x7d"

def escaped (c : Char) : String :=
  match c with
  | '\'' => "\\'"
  | '\\' => "\\\\"
  | '\n' => "\\n"
  | '\r' => "\\r"
  | '\t' => "\\t"
  | '\x00' => "\\0"
  | c => if hasGlyph c then c.toString else codePoint c

def quoted (c : Char) : String :=
  "'" ++ escaped c ++ "'"

end Formula.Text
