import Formula.Proofs.Chained.InStep
import Formula.Proofs.Single.InStep

/-!
# The end of the input

A reader of single operators takes the end of the input to close a group that is left open. Nothing
comes after it then, so the group is read as it would be without it. A reader of chains never goes
past the end, whatever comes after it.
-/

set_option autoImplicit false

namespace Formula

/-- What comes after the tokens is the end of the input, and then the rest. -/
def EndsThen (rest tokens tokens' : List Token) : Prop :=
  tokens' = tokens ++ .endOfInput :: rest

theorem prolongs_endsThen (rest : List Token) : Prolongs (EndsThen rest) where
  next := by
    rintro token tokens tokens' rfl
    exact ⟨tokens ++ .endOfInput :: rest, rfl, rfl⟩
  stop := by
    rintro tokens' rfl token htoken
    obtain rfl := Option.some.inj htoken
    rfl

/-- What is unconsumed does not tell the end of the input. -/
theorem Single.OneMore.filter_eq {tokens tokens' : List Token}
    (h : OneMore .endOfInput tokens tokens') :
    tokens'.filter (· ≠ .endOfInput) = tokens.filter (· ≠ .endOfInput) := by
  rcases h with rfl | ⟨rfl, rfl⟩
  · simp
  · rfl

/-- Readers at the same depth have the same limit. -/
theorem limit_map_add_zero (limit : Option Nat) : limit.map (· + 0) = limit := by
  simp

namespace Grammar

open Production (Follows)

theorem agree_run_single (limit : Option Nat) (tokens : List Token) :
    Agree (Single.OneMore .endOfInput) 0 (single.run limit tokens)
      (single.run limit (tokens ++ [.endOfInput])) := by
  have hstart : Cursor.InStep (Single.OneMore .endOfInput) 0 { tokens }
      { tokens := tokens ++ [.endOfInput] } :=
    ⟨.inl rfl, rfl, rfl, rfl, rfl⟩
  have hagree := Single.agree_oneMore rfl limit hstart (Nat.le_refl _) (Nat.le_refl _)
  rwa [limit_map_add_zero] at hagree

theorem agree_run_chained (limit : Option Nat) (tokens rest : List Token) :
    Agree (EndsThen rest) 0 (chained.run limit tokens)
      (chained.run limit (tokens ++ .endOfInput :: rest)) := by
  have hT := prolongs_endsThen rest
  have hopen {tokens' : List Token} (h : EndsThen rest [] tokens') :
      tokens'.head? ≠ some .closeParen := by
    rw [h]
    simp
  have hfactor : Follows (UpTo _ _ (EndsThen rest)) 0 _ _ :=
    Chained.factorWithin_follows hT hopen limit tokens.length
      (tokens ++ .endOfInput :: rest).length
  have hframed := Chained.factorWithin_framed
  have hstart : Cursor.InStep (UpTo tokens.length (tokens ++ .endOfInput :: rest).length
      (EndsThen rest)) 0 { tokens } { tokens := tokens ++ .endOfInput :: rest } :=
    ⟨⟨rfl, Nat.le_refl _, Nat.le_refl _⟩, rfl, rfl, rfl, rfl⟩
  have hagree := Chained.expressionOf_follows hT hfactor (hframed _ _) (hframed _ _) limit hstart
  rw [limit_map_add_zero] at hagree
  exact ⟨hagree.expr, hagree.inStep.mono hagree.inStep.tokens.related⟩

/-- The end of the input does not change what is read. What comes after it is left over by a reader
of chains. -/
theorem read_append_endOfInput (tokens : List Token) :
    (∀ grammar : Grammar, grammar.read (tokens ++ [.endOfInput]) = grammar.read tokens) ∧
    ∀ rest, chained.read (tokens ++ .endOfInput :: rest) =
      { chained.read tokens with
        unconsumed := (chained.read tokens).unconsumed ++ rest.filter (· ≠ .endOfInput) } := by
  have hchained (rest : List Token) : chained.read (tokens ++ .endOfInput :: rest) =
      { chained.read tokens with
        unconsumed := (chained.read tokens).unconsumed ++ rest.filter (· ≠ .endOfInput) } := by
    have hagree := agree_run_chained (some deepestNesting) tokens rest
    have hleft : _ = _ ++ _ := hagree.inStep.tokens
    rw [read, readWithin_of_agree hagree, hleft, List.filter_append]
    rfl
  refine ⟨?_, hchained⟩
  intro grammar
  cases grammar with
  | single =>
    have hagree := agree_run_single (some deepestNesting) tokens
    have hleft := hagree.inStep.tokens.filter_eq
    rw [read, readWithin_of_agree hagree, hleft]
    rfl
  | chained =>
    rw [hchained []]
    simp

end Grammar
end Formula
