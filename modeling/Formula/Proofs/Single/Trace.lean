import Formula.Proofs.Grammar.Frame
import Formula.Proofs.Phrase.Rendered

/-!
# What single operators read is a phrase

Whatever the tokens are, the reader of single operators divides those that it takes into a
phrase. The expression, the tokens and the displaced operations are those of the phrase.
-/

set_option autoImplicit false

namespace Formula

theorem Operator.exists_sign {op : Operator} (h : op.level = .sum) :
    ∃ sign : Sign, sign.operator = op := by
  cases op with
  | add => exact ⟨.plus, rfl⟩
  | subtract => exact ⟨.minus, rfl⟩
  | _ => cases h

namespace Single

/-- The result stands for the phrase that begins at the cursor. -/
structure Traces {r : Option Level} (p : Phrase r) (c : Cursor) (result : Expr × Cursor) :
    Prop where
  tokens : c.tokens = p.tokens ++ result.2.tokens
  expr : result.1 = p.expr
  displaced : result.2.displaced = c.displaced ++ p.displaced
  decided : p.Decided

def Traced (r : Option Level) (production : Production) : Prop :=
  ∀ c, ∃ p : Phrase r, Traces p c (production c)

variable {r : Option Level} {production factor : Production}

/-- At the limit, the phrase is a missing operand. -/
theorem Traced.nested (h : Traced r production) (limit : Option Nat) :
    Traced r (production.nested limit) := by
  intro c
  unfold Production.nested
  split
  · refine ⟨.ofFactor r .missing, by simp [Phrase.tokens], ?_, ?_, ?_⟩
    · simp [Phrase.expr]
    · simp [Phrase.displaced]
    · simp [Phrase.Decided]
  · obtain ⟨p, htokens, hexpr, hdisplaced, hdecided⟩ := h c.descend
    exact ⟨p, htokens, hexpr, hdisplaced, hdecided⟩

theorem Traces.alone {level : Level} {operand : Phrase level.operand} {c : Cursor}
    {result : Expr × Cursor} (h : Traces operand c result) :
    Traces (.alone level operand) c result :=
  ⟨h.tokens, h.expr, h.displaced, h.decided⟩

theorem Traces.joined {level : Level} {op : Operator} (hop : op.level = level)
    {left right : Phrase level.operand} {c : Cursor} {first second : Expr × Cursor}
    (hleft : Traces left c first) (hhead : first.2.tokens = .operator op :: first.2.tokens.tail)
    (hright : Traces right first.2.advance second)
    (hsum : level = .sum → left.expr.isMissing = false ∧ left.expr.isOperation = false) :
    Traces (.joined level op hop left right) c (.binary op first.1 second.1, second.2) := by
  refine ⟨?_, ?_, ?_, hsum, hleft.decided, hright.decided⟩
  · rw [Phrase.tokens, List.append_assoc, List.cons_append, ← hright.tokens, hleft.tokens]
    exact congrArg (left.tokens ++ ·) hhead
  · simp only [Phrase.expr, hleft.expr, hright.expr]
  · rw [Phrase.displaced, ← List.append_assoc, ← hleft.displaced]
    exact hright.displaced

theorem joined_traced {level : Level} (hlevel : level ≠ .sum) (h : Traced level.operand production) :
    Traced (some level) (joined level production) := by
  intro c
  obtain ⟨left, hleft⟩ := h c
  rw [joined_eq]
  cases hpeek : (production c).2.peekOperator? level with
  | none => exact ⟨_, hleft.alone⟩
  | some op =>
    obtain ⟨hop, hhead⟩ := Cursor.peekOperator?_eq_some hpeek
    obtain ⟨right, hright⟩ := h (production c).2.advance
    exact ⟨_, hleft.joined hop hhead hright fun heq => absurd heq hlevel⟩

theorem termOf_traced (h : Traced none factor) : Traced (some .product) (termOf factor) := by
  have hpower : Traced (some .power) (powerOf factor) := joined_traced (by decide) h
  exact joined_traced (by decide) hpower

/-- A sign after the first term displaces it, unless it is missing. -/
theorem signedTerm_traced (h : Traced none factor) {before : Phrase (some .product)} {sign : Sign}
    {c c' : Cursor} (hbefore : Traces before c (before.expr, c'))
    (hhead : c'.tokens = .operator sign.operator :: c'.tokens.tail)
    (hsign : before.expr.isMissing = true ∨ before.expr.isOperation = true) :
    ∃ p : Phrase (some .sum),
      Traces p c (signedTerm factor before.expr sign.operator c'.advance) := by
  obtain ⟨operand, hoperand⟩ :=
    termOf_traced h (signCursor before.expr sign.operator c'.advance)
  have htail : (signCursor before.expr sign.operator c'.advance).tokens = c'.tokens.tail := by
    unfold signCursor
    split <;> rfl
  have hdisplaced : (signCursor before.expr sign.operator c'.advance).displaced =
      c'.displaced ++ if before.expr.isMissing then [] else [before.expr] := by
    unfold signCursor
    split
    · exact (List.append_nil _).symm
    · rfl
  rw [signedTerm_eq, Operator.sign?_operator]
  refine ⟨.signed sign before operand, ?_, ?_, ?_, hsign, hbefore.decided, hoperand.decided⟩
  · rw [Phrase.tokens, List.append_assoc, List.cons_append, ← hoperand.tokens, htail, ← hhead]
    exact hbefore.tokens
  · simp only [Phrase.expr, hoperand.expr]
  · rw [hoperand.displaced, hdisplaced, show c'.displaced = _ from hbefore.displaced]
    simp only [Phrase.displaced, List.append_assoc]

theorem expressionOf_traced (h : Traced none factor) :
    Traced (some .sum) (expressionOf factor) := by
  have hterm := termOf_traced h
  intro c
  obtain ⟨first, hfirst⟩ := hterm c
  rw [expressionOf_eq]
  cases hpeek : (termOf factor c).2.peekOperator? .sum with
  | none => exact ⟨_, hfirst.alone⟩
  | some op =>
    obtain ⟨hop, hhead⟩ := Cursor.peekOperator?_eq_some hpeek
    have hfirst' : Traces first c (first.expr, (termOf factor c).2) :=
      ⟨hfirst.tokens, rfl, hfirst.displaced, hfirst.decided⟩
    rw [hfirst.expr]
    dsimp only
    split
    · rename_i hsign
      obtain ⟨sign, rfl⟩ : ∃ sign : Sign, sign.operator = op := Operator.exists_sign hop
      exact signedTerm_traced h hfirst' hhead (Bool.or_eq_true_iff.mp hsign)
    · rename_i hsign
      rw [Bool.not_eq_true, Bool.or_eq_false_iff] at hsign
      obtain ⟨second, hsecond⟩ := hterm (termOf factor c).2.advance
      exact ⟨_, hfirst'.joined hop hhead hsecond fun _ => hsign⟩

/-- Whatever token comes next is the one that closes a group. -/
theorem group_traced {group : Production} (h : Traced (some .sum) group) (b : Bracket) {c : Cursor}
    {rest : List Token} (hc : c.tokens = b.opening :: rest) :
    ∃ p : Phrase none, Traces p c (b.wrap (group (c.advance.note (.factor b.opening))).1,
      (group (c.advance.note (.factor b.opening))).2.advance) := by
  obtain ⟨inner, hinner⟩ := h (c.advance.note (.factor b.opening))
  have htokens := hinner.tokens
  simp only [Cursor.note_tokens, Cursor.advance_tokens] at htokens
  refine ⟨.group b inner (group (c.advance.note (.factor b.opening))).2.tokens.head?, ?_, ?_,
    hinner.displaced, hinner.decided⟩
  · rw [hc, List.tail_cons] at htokens
    have hsplit (tokens : List Token) : tokens = tokens.head?.toList ++ tokens.tail := by
      cases tokens <;> rfl
    rw [hc, htokens, Phrase.tokens, List.cons_append, List.append_assoc]
    exact congrArg (b.opening :: inner.tokens ++ ·) (hsplit _)
  · simp only [Phrase.expr, hinner.expr]

theorem factorWithin_traced (limit : Option Nat) (size : Nat) :
    Traced none (factorWithin limit size) := by
  induction size with
  | zero => exact fun c => ⟨.missing, rfl, rfl, (List.append_nil _).symm, trivial⟩
  | succ size ih =>
    have hgroup := (expressionOf_traced ih).nested limit
    have hcall := ih.nested limit
    intro c
    unfold factorWithin
    split
    · rename_i value rest ht
      exact ⟨.number value, by simp [Phrase.tokens, ht], rfl, (List.append_nil _).symm, trivial⟩
    · rename_i v rest ht
      exact ⟨.letter v, by simp [Phrase.tokens, ht], rfl, (List.append_nil _).symm, trivial⟩
    · exact group_traced hgroup .paren ‹_›
    · rename_i f rest ht
      obtain ⟨argument, hargument⟩ := hcall (c.advance.note (.factor (.function f)))
      refine ⟨.call f argument, ?_, ?_, hargument.displaced, hargument.decided⟩
      · rw [Phrase.tokens, List.cons_append, ← hargument.tokens]
        simp [ht]
      · simp only [Phrase.expr, hargument.expr]
    · exact group_traced hgroup .bar ‹_›
    · exact ⟨.missing, rfl, rfl, (List.append_nil _).symm, trivial⟩

theorem run_traced (limit : Option Nat) (tokens : List Token) :
    ∃ p : Phrase (some .sum), Traces p { tokens } (Grammar.single.run limit tokens) :=
  expressionOf_traced (factorWithin_traced limit _) _

/-- A phrase stands at the start of the tokens, for what is read from them. -/
theorem exists_phrase_read (tokens : List Token) :
    ∃ p : Phrase (some .sum), p.tokens <+: tokens ∧ (Grammar.single.read tokens).expr = p.expr ∧
      (Grammar.single.read tokens).displaced = p.displaced ∧ p.Decided := by
  obtain ⟨p, htrace⟩ := run_traced (some deepestNesting) tokens
  exact ⟨p, ⟨_, htrace.tokens.symm⟩, htrace.expr, htrace.displaced, htrace.decided⟩

end Single
end Formula
