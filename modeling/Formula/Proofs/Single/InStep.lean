import Formula.Proofs.Grammar.InStep
import Formula.Proofs.Single.Rereading

/-!
# Readers of single operators in step

A reader of single operators takes any token to close a group, also one that comes after the tokens
of another reader. So the two are in step if what comes there can be taken away.
-/

set_option autoImplicit false

namespace Formula.Single

open Production (Follows)

variable {T : List Token → List Token → Prop} {shift size size' : Nat} {p q : Production}

theorem joined_follows (hT : Prolongs T) (h : Follows T shift p q) (level : Level) :
    Follows T shift (joined level p) (joined level q) := by
  intro c c' hstep
  have hleft := h hstep
  rw [joined_eq, joined_eq, hleft.inStep.peekOperator? hT]
  cases hpeek : (p c).2.peekOperator? level with
  | none => exact hleft
  | some op =>
    have hright := h (hleft.inStep.advance hT (Cursor.peekOperator?_eq_some hpeek).2)
    exact ⟨congrArg₂ (Expr.binary op) hleft.expr hright.expr, hright.inStep⟩

theorem termOf_follows (hT : Prolongs T) (h : Follows T shift p q) :
    Follows T shift (termOf p) (termOf q) :=
  joined_follows hT (joined_follows hT h .power) .product

theorem signedTerm_follows (hT : Prolongs T) (h : Follows T shift p q) (before : Expr)
    (op : Operator) : Follows T shift (signedTerm p before op) (signedTerm q before op) := by
  intro c c' hstep
  have hsign : (signCursor before op c).InStep T shift (signCursor before op c') := by
    unfold signCursor
    split
    · exact hstep.note _
    · exact (hstep.note _).displace before
  have hterm : Agree T shift (termOf p _) (termOf q _) := termOf_follows hT h hsign
  rw [signedTerm_eq, signedTerm_eq]
  split
  · rename_i sign _
    exact ⟨congrArg (Expr.signed sign) hterm.expr, hterm.inStep⟩
  · exact hterm

theorem expressionOf_follows (hT : Prolongs T) (h : Follows T shift p q) :
    Follows T shift (expressionOf p) (expressionOf q) := by
  intro c c' hstep
  have hfirst : Agree T shift (termOf p c) (termOf q c') := termOf_follows hT h hstep
  rw [expressionOf_eq, expressionOf_eq, hfirst.inStep.peekOperator? hT, hfirst.expr]
  cases hpeek : (termOf p c).2.peekOperator? .sum with
  | none => exact ⟨hfirst.expr, hfirst.inStep⟩
  | some op =>
    have hnext := hfirst.inStep.advance hT (Cursor.peekOperator?_eq_some hpeek).2
    dsimp only
    split
    · exact signedTerm_follows hT h _ op hnext
    · have hsecond : Agree T shift (termOf p _) (termOf q _) := termOf_follows hT h hnext
      exact ⟨congrArg (Expr.binary op _) hsecond.expr, hsecond.inStep⟩

theorem factorWithin_of_isInert {limit : Option Nat} {c : Cursor}
    (h : ∀ token ∈ c.tokens.head?, token.isInert = true) :
    factorWithin limit size c = (.missing, c) := by
  apply factorWithin_of_not_startsFactor
  intro token htoken
  exact Token.startsFactor_of_isInert (h token htoken)

section

variable (hT : Prolongs T) (hpop : ∀ {tokens'}, T [] tokens' → T [] tokens'.tail)
include hT hpop

/-- A group is closed at the end of the tokens of the first reader, too. -/
theorem advance_inStep {c c' : Cursor} (h : c.InStep (UpTo size size' T) shift c') :
    c.advance.InStep (UpTo size size' T) shift c'.advance := by
  rcases hc : c.tokens with _ | ⟨token, rest⟩
  · have htail : c'.tokens.tail.length ≤ size' :=
      Nat.le_trans (List.tail_suffix _).length_le h.tokens.length_le'
    refine ⟨?_, h.depth, h.tooDeep, h.unclosed, h.displaced⟩
    rw [Cursor.advance_tokens, Cursor.advance_tokens, hc]
    exact ⟨hpop (hc ▸ h.tokens.related), Nat.zero_le _, htail⟩
  · exact h.advance (hT.upTo size size') hc

theorem factorWithin_follows (limit : Option Nat) (size size' : Nat) :
    Follows (UpTo size size' T) shift (factorWithin limit size)
      (factorWithin (limit.map (· + shift)) size') := by
  induction size generalizing size' with
  | zero =>
    intro c c' hstep
    rw [factorWithin_of_isInert (hstep.inert (hT.upTo 0 size') hstep.tokens.eq_nil)]
    exact ⟨rfl, hstep⟩
  | succ size ih =>
    intro c c' hstep
    rcases hc : c.tokens with _ | ⟨token, rest⟩
    · have hinert := hstep.inert (hT.upTo _ size') hc
      rw [factorWithin_of_isInert hinert, factorWithin_of_isInert (by simp [hc])]
      exact ⟨rfl, hstep⟩
    · obtain ⟨rest', hc'⟩ := hstep.head? (hT.upTo _ size') hc
      obtain ⟨fewer, fewer', hsize, rfl, hnext⟩ := hstep.advance_upTo hT hc
      obtain rfl := Nat.succ.inj hsize
      have hp := factorWithin_framed limit size
      have hq := factorWithin_framed (limit.map (· + shift)) fewer'
      have hcall := (ih fewer').nested hp hq limit
      have hgroup := (expressionOf_follows (hT.upTo size fewer') (ih fewer')).nested
        (expressionOf_framed hp) (expressionOf_framed hq) limit
      have hstart := hnext.note (.factor token)
      unfold factorWithin
      rw [hc, hc']
      cases token with
      | number value => exact ⟨rfl, hstart.widen⟩
      | letter v => exact ⟨rfl, hstart.widen⟩
      | openParen =>
        have hinner := hgroup hstart
        exact ⟨hinner.expr, (advance_inStep hT hpop hinner.inStep).widen⟩
      | function f =>
        have hargument := hcall hstart
        exact ⟨congrArg (Expr.call f) hargument.expr, hargument.inStep.widen⟩
      | bar =>
        have hinner := hgroup hstart
        exact ⟨congrArg Expr.absolute hinner.expr, (advance_inStep hT hpop hinner.inStep).widen⟩
      | _ => exact ⟨rfl, hstep⟩

end

/-- The second list has one token more, or both are at their ends. -/
def OneMore (token : Token) (tokens tokens' : List Token) : Prop :=
  tokens' = tokens ++ [token] ∨ tokens = [] ∧ tokens' = []

theorem OneMore.prolongs {token : Token} (h : token.isInert = true) : Prolongs (OneMore token) where
  next := by
    rintro first rest tokens' (rfl | ⟨hnil, _⟩)
    · exact ⟨rest ++ [token], rfl, .inl rfl⟩
    · cases hnil
  stop := by
    rintro tokens' (rfl | ⟨_, rfl⟩)
    · simpa using h
    · simp

theorem OneMore.tail_eq_nil {token : Token} {tokens' : List Token} (h : OneMore token [] tokens') :
    tokens'.tail = [] := by
  rcases h with rfl | ⟨_, rfl⟩ <;> rfl

theorem OneMore.tail {token : Token} {tokens' : List Token} (h : OneMore token [] tokens') :
    OneMore token [] tokens'.tail :=
  .inr ⟨rfl, h.tail_eq_nil⟩

/-- One more token that goes on with no phrase changes nothing but what is left in the end. -/
theorem agree_oneMore {token : Token} (h : token.isInert = true) (limit : Option Nat) {c c' : Cursor}
    (hstep : c.InStep (OneMore token) shift c') (hlength : c.tokens.length ≤ size)
    (hlength' : c'.tokens.length ≤ size') :
    Agree (OneMore token) shift (expressionOf (factorWithin limit size) c)
      (expressionOf (factorWithin (limit.map (· + shift)) size') c') := by
  have hT := OneMore.prolongs h
  have hfactor : Follows (UpTo size size' (OneMore token)) shift _ _ :=
    factorWithin_follows hT OneMore.tail limit size size'
  have hagree := expressionOf_follows (hT.upTo size size') hfactor
    (hstep.mono ⟨hstep.tokens, hlength, hlength'⟩)
  exact ⟨hagree.expr, hagree.inStep.mono hagree.inStep.tokens.related⟩

end Formula.Single
