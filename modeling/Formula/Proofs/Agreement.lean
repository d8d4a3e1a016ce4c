import Formula.Compiled
import Formula.Proofs.Chained.Language
import Formula.Proofs.Chained.Rereading
import Formula.Proofs.Grammar.Limit
import Formula.Proofs.Phrase.Balance
import Formula.Proofs.Single.Trace
import Formula.Proofs.Warnings

/-!
# Where both grammars read a text, they read the same

Chains that are read without a report leave no group open. So the phrase that the other grammar
has found in the same tokens is closed, and the reader of chains takes it for what it is.
-/

set_option autoImplicit false

namespace Formula

open Token (totalRise expectsAfter)

namespace Chained

def Nonterminal.atOperand : Nonterminal → Bool
  | links _ => false
  | _ => true

/-- A word leaves no group open, and no operand is expected after it. -/
theorem Derives.balanced {n : Nonterminal} {tokens : List Token} (h : Derives n tokens) :
    totalRise n.atOperand tokens = 0 ∧ expectsAfter n.atOperand tokens = false := by
  have hoperand (level : Level) : (Nonterminal.operand level).atOperand = true := by
    cases level <;> rfl
  induction h <;>
    simp_all [Nonterminal.atOperand, Token.rise, Token.expectsOperand]

end Chained

theorem Chained.totalRise_of_clean {tokens : List Token} (h : (Grammar.chained.read tokens).Clean) :
    totalRise true tokens = 0 := by
  obtain ⟨used, htokens, hderives⟩ :=
    Chained.expression_sound (some deepestNesting) { tokens } h.hasMissing h.unclosed
  have hrest := Grammar.eq_endOfInput_of_unconsumed h.unconsumed
  change tokens = used ++ (Grammar.chained.run (some deepestNesting) tokens).2.tokens at htokens
  calc totalRise true tokens
      = totalRise true used +
          totalRise _ (Grammar.chained.run (some deepestNesting) tokens).2.tokens := by
        rw [← Token.totalRise_append, ← htokens]
    _ = 0 := by
        rw [show totalRise true used = 0 from hderives.balanced.1,
          Token.totalRise_of_endOfInput _ hrest, Int.add_zero]

/-- A phrase that the reader of single operators found without a report is closed if no group of
the tokens is left open. -/
theorem Single.closed_of_clean {tokens : List Token} (h : (Grammar.single.read tokens).Clean)
    (hrise : totalRise true tokens = 0) :
    ∃ (p : Phrase (some .sum)) (rest : List Token), tokens = p.tokens ++ rest ∧
      (∀ token ∈ rest, token = .endOfInput) ∧ p.expr = (Grammar.single.read tokens).expr ∧
      p.Closed Phrase.AnyCloser := by
  obtain ⟨p, htrace⟩ := Single.run_traced (some deepestNesting) tokens
  have hrest := Grammar.eq_endOfInput_of_unconsumed h.unconsumed
  have htokens : tokens =
      p.tokens ++ (Grammar.single.run (some deepestNesting) tokens).2.tokens := htrace.tokens
  have hdisplaced : p.displaced = [] := htrace.displaced.symm.trans h.displaced
  have hphrase : totalRise true p.tokens = 0 := by
    rw [htokens, Token.totalRise_append, Token.totalRise_of_endOfInput _ hrest] at hrise
    omega
  exact ⟨p, _, htokens, hrest, htrace.expr.symm, (Phrase.closed_of_totalRise hphrase hdisplaced).1⟩

theorem read_eq_of_clean {tokens : List Token} (hsingle : (Grammar.single.read tokens).Clean)
    (hchained : (Grammar.chained.read tokens).Clean) :
    (Grammar.single.read tokens).expr = (Grammar.chained.read tokens).expr := by
  obtain ⟨p, rest, htokens, hrest, hexpr, hclosed⟩ :=
    Single.closed_of_clean hsingle (Chained.totalRise_of_clean hchained)
  have hmissing : p.expr.hasMissing = false := by
    rw [hexpr]
    exact hsingle.hasMissing
  have hread : Chained.ReadsUnless (¬ p.Closed Phrase.OwnCloser) { tokens } p.expr rest
      (Grammar.chained.run none tokens) :=
    Chained.production_readsUnless hclosed hmissing htokens (Nat.le_refl _) (hasRoom_none _)
      (stopsAt_of_endOfInput _ hrest)
  rw [← Grammar.run_eq_run_none .chained (some deepestNesting) tokens hchained.tooDeep] at hread
  -- A group of the phrase may be closed by the other token, but chains would have counted it.
  rcases hread with hread | ⟨_, hlt⟩
  · exact hexpr.symm.trans hread.expr.symm
  · exact absurd hchained.unclosed (Nat.ne_of_gt hlt)

/-- Chains are a conservative extension: a text that compiles without a warning in both grammars
is the same formula in both. -/
theorem Compiled.ofText_single_eq_chained (text : String)
    (hsingle : (ofText .single text).warnings = [])
    (hchained : (ofText .chained text).warnings = []) :
    (ofText .single text).expr = (ofText .chained text).expr ∧
      ∀ x, (ofText .single text).eval x = (ofText .chained text).eval x := by
  have hexpr : (ofText .single text).expr = (ofText .chained text).expr :=
    read_eq_of_clean (Warning.clean_of_ofReading hsingle) (Warning.clean_of_ofReading hchained)
  exact ⟨hexpr, fun x => congrArg (Expr.eval x) hexpr⟩

theorem Compiled.ofText_signed_power :
    let single := ofText .single "-(x-y)^|z|"
    let chained := ofText .chained "-(x-y)^|z|"
    let tree : Expr := .signed .minus
      (.binary .power (.binary .subtract (.letter .x) (.letter .y)) (.absolute (.letter .z)))
    single.warnings = [] ∧ chained.warnings = [] ∧ single.expr = tree ∧ chained.expr = tree ∧
      ∀ x, single.eval x = chained.eval x := by
  intro single chained tree
  have hsingle : single.warnings = [] := by decide +kernel
  have hchained : chained.warnings = [] := by decide +kernel
  have htree : single.expr = tree := by decide +kernel
  obtain ⟨hexpr, heval⟩ := ofText_single_eq_chained _ hsingle hchained
  exact ⟨hsingle, hchained, htree, hexpr.symm.trans htree, heval⟩

end Formula
