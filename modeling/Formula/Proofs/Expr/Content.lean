import Formula.Proofs.Phrase.Basic

/-!
# What an infix form says

The content of an expression are its values, operators and functions in the order in which they
are written. Everything else in its infix form is a bracket.
-/

set_option autoImplicit false

namespace Formula

namespace Token

/-- Whether the token is a value, an operator or a function. -/
def isContent : Token → Bool
  | number _ | letter _ | operator _ | function _ => true
  | _ => false

def isBracket : Token → Bool
  | openParen | closeParen | bar => true
  | _ => false

/-- Whether the token can open a group. -/
def opensGroup : Token → Bool
  | openParen | bar => true
  | _ => false

def unbracketed (tokens : List Token) : List Token :=
  tokens.filter fun token => !token.isBracket

@[simp] theorem unbracketed_nil : unbracketed [] = [] := rfl

theorem unbracketed_cons (token : Token) (tokens : List Token) :
    unbracketed (token :: tokens) =
      if token.isBracket then unbracketed tokens else token :: unbracketed tokens := by
  cases h : token.isBracket <;> simp [unbracketed, h]

@[simp] theorem unbracketed_append (left right : List Token) :
    unbracketed (left ++ right) = unbracketed left ++ unbracketed right :=
  List.filter_append ..

end Token

namespace Expr

def content : Expr → List Token
  | missing => []
  | number value => [.number value]
  | letter v => [.letter v]
  | binary op left right => left.content ++ .operator op :: right.content
  | signed sign operand => .operator sign.operator :: operand.content
  | absolute operand => operand.content
  | call f argument => .function f :: argument.content

theorem filter_parensIf {keep : Token → Bool} (hopen : keep .openParen = false)
    (hclose : keep .closeParen = false) (condition : Bool) (tokens : List Token) :
    (parensIf condition tokens).filter keep = tokens.filter keep := by
  cases condition <;> simp [parensIf, inParens, hopen, hclose]

/-- Whatever keeps the content and drops the brackets leaves the content of an infix form. -/
theorem filter_infixTokens {keep : Token → Bool}
    (hbracket : ∀ token : Token, token.isBracket = true → keep token = false)
    (hcontent : ∀ token : Token, token.isContent = true → keep token = true) (e : Expr) :
    e.infixTokens.filter keep = e.content := by
  have hparens := filter_parensIf (hbracket .openParen rfl) (hbracket .closeParen rfl)
  have hbar : keep .bar = false := hbracket .bar rfl
  induction e with
  | missing => rfl
  | number value => simp [infixTokens, content, hcontent (.number value) rfl]
  | letter v => simp [infixTokens, content, hcontent (.letter v) rfl]
  | binary op left right ihl ihr =>
    simp [infixTokens, content, hparens, hcontent (.operator op) rfl, ihl, ihr]
  | signed sign operand ih =>
    simp [infixTokens, content, hparens, hcontent (.operator sign.operator) rfl, ih]
  | absolute operand ih => simp [infixTokens, content, hbar, ih]
  | call f argument ih =>
    have hargument := hparens true argument.infixTokens
    simp only [parensIf, if_true] at hargument
    simp [infixTokens, content, hcontent (.function f) rfl, hargument, ih]

theorem unbracketed_infixTokens (e : Expr) : Token.unbracketed e.infixTokens = e.content := by
  apply filter_infixTokens
  · intro token hbracket
    simp [hbracket]
  · intro token hcontent
    cases token <;> simp_all [Token.isContent, Token.isBracket]

theorem filter_isContent_infixTokens (e : Expr) :
    e.infixTokens.filter Token.isContent = e.content := by
  apply filter_infixTokens
  · intro token hbracket
    cases token <;> simp_all [Token.isContent, Token.isBracket]
  · exact fun _ => id

theorem countP_infixTokens {kind : Token → Bool}
    (hkind : ∀ token, kind token = true → token.isContent = true) (e : Expr) :
    e.infixTokens.countP kind = e.content.countP kind := by
  rw [← e.filter_isContent_infixTokens, List.countP_filter]
  apply List.countP_congr
  intro token _
  simpa using hkind token

end Expr

namespace Bracket

theorem isBracket_opening (b : Bracket) : b.opening.isBracket = true := by
  cases b <;> rfl

theorem isBracket_closing (b : Bracket) : b.closing.isBracket = true := by
  cases b <;> rfl

theorem content_wrap (b : Bracket) (e : Expr) : (b.wrap e).content = e.content := by
  cases b <;> rfl

end Bracket

end Formula
