import Formula.Compiled
import Formula.Proofs.Grammar.Frame
import Formula.Proofs.Token.Separate
import Formula.Proofs.Warnings

/-!
# The text of ignored tokens

The warning about ignored tokens quotes their written form. They are read from it again just when
they are told apart in it.
-/

set_option autoImplicit false

namespace Formula

/-- The tokens that a reading leaves over are the last ones before the end of the input. -/
theorem Grammar.unconsumed_suffix (grammar : Grammar) (tokens : List Token) :
    (grammar.read tokens).unconsumed <:+ tokens.filter (· ≠ .endOfInput) :=
  (grammar.run_reaches (some deepestNesting) tokens).tokens.filter _

namespace Warning

theorem eq_spell_of_ignored_mem {tokens : List Token} {reading : Reading} {text : String}
    (h : ignored text ∈ ofReading tokens reading) : text = Token.spell reading.unconsumed := by
  have hcases := mem_ofReading h
  simp at hcases
  exact hcases.2

end Warning

namespace Compiled

theorem readable_of_mem_unconsumed {grammar : Grammar} {text : String}
    (hfinite : ∀ value, .number value ∈ Token.ofText text → value.isFinite = true) {token : Token}
    (h : token ∈ (grammar.read (Token.ofText text)).unconsumed) : token.Readable := by
  obtain ⟨hmem, hend⟩ := List.mem_filter.mp ((grammar.unconsumed_suffix _).subset h)
  refine Token.readable_of_mem_ofText hmem (of_decide_eq_true hend) ?_
  rintro value rfl
  exact hfinite value hmem

/-- The text that a warning quotes has the tokens that were ignored, if they are told apart in their
written form. Otherwise it has others. -/
theorem ofText_ignored_iff {grammar : Grammar} {text quoted : String}
    (hfinite : ∀ value, .number value ∈ Token.ofText text → value.isFinite = true)
    (h : .ignored quoted ∈ (ofText grammar text).warnings) :
    Token.ofText quoted = (grammar.read (Token.ofText text)).unconsumed ++ [.endOfInput] ↔
      Token.Separate (grammar.read (Token.ofText text)).unconsumed := by
  rw [Warning.eq_spell_of_ignored_mem h]
  apply Token.ofText_spell_iff_separate
  intro token htoken
  exact readable_of_mem_unconsumed hfinite htoken

theorem ofText_ignored_stray_closer :
    .ignored ")# - 1" ∈ (ofText .single "x) # -1").warnings ∧
      Token.ofText ")# - 1" =
        (Grammar.single.read (Token.ofText "x) # -1")).unconsumed ++ [.endOfInput] := by
  have htokens : Token.ofText "x) # -1" =
      [.letter .x, .closeParen, .unknown '#', .operator .subtract, .number 1, .endOfInput] := by
    decide +kernel
  have hfinite (value : Float) (h : .number value ∈ Token.ofText "x) # -1") :
      value.isFinite = true := by
    obtain rfl : value = 1 := by simpa [htokens] using h
    rfl
  have hignored : .ignored ")# - 1" ∈ (ofText .single "x) # -1").warnings := by decide +kernel
  have hunconsumed : (Grammar.single.read (Token.ofText "x) # -1")).unconsumed =
      [.closeParen, .unknown '#', .operator .subtract, .number 1] := by decide +kernel
  refine ⟨hignored, (ofText_ignored_iff hfinite hignored).mpr ?_⟩
  rw [hunconsumed]
  constructor
  · simp [Token.Apart, Token.isNumber]
  · have hname (f : Elementary) (rest : List Char) : ¬ f.name.toList <+: '#' :: rest := by
      cases f <;> simp [Elementary.name]
    simp [Token.nameless_cons, Token.nameless_unknown_cons, Token.nameless_nil, hname]
  · intro c hc
    cases hc

theorem ofText_ignored_touching :
    (∀ value, .number value ∈ Token.ofText "x 1 2" → value.isFinite = true) ∧
      .ignored "12" ∈ (ofText .single "x 1 2").warnings ∧
      Token.ofText "12" ≠
        (Grammar.single.read (Token.ofText "x 1 2")).unconsumed ++ [.endOfInput] := by
  have htokens : Token.ofText "x 1 2" = [.letter .x, .number 1, .number 2, .endOfInput] := by
    decide +kernel
  refine ⟨?_, by decide +kernel, by decide +kernel⟩
  intro value h
  obtain rfl | rfl : value = 1 ∨ value = 2 := by simpa [htokens] using h
  all_goals rfl

end Compiled
end Formula
