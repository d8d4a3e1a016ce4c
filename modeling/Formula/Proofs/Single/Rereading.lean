import Formula.Proofs.Grammar.Outcome

/-!
# Single operators read phrases back

The reader of single operators takes a phrase for what it is, if the signs of the phrase are
decided as the reader decides them and no missing operand stands before the start of a factor.
-/

set_option autoImplicit false

namespace Formula.Single

def production (limit : Option Nat) (size : Nat) : Option Level → Production
  | none => factorWithin limit size
  | some .power => powerOf (factorWithin limit size)
  | some .product => termOf (factorWithin limit size)
  | some .sum => expressionOf (factorWithin limit size)

variable {limit : Option Nat} {size : Nat} {c : Cursor} {rest : List Token}

theorem factorWithin_of_not_startsFactor
    (h : ∀ token, c.tokens.head? = some token → token.startsFactor = false) :
    factorWithin limit size c = (.missing, c) := by
  cases size with
  | zero => rfl
  | succ size =>
    rcases ht : c.tokens with _ | ⟨token, rest⟩
    · simp [factorWithin, ht]
    · have hstart : token.startsFactor = false := h token (by simp [ht])
      cases token <;> simp_all [factorWithin, Token.startsFactor]

theorem factorWithin_call {f : Elementary} (h : c.tokens = .function f :: rest) :
    factorWithin limit (size + 1) c =
      (.call f ((factorWithin limit size).nested limit
          (c.advance.note (.factor (.function f)))).1,
        ((factorWithin limit size).nested limit (c.advance.note (.factor (.function f)))).2) := by
  simp [factorWithin, h]

theorem factorWithin_call_readsAs {f : Elementary} {e : Expr} {middle : List Token}
    (htokens : c.tokens = .function f :: middle) (hroom : HasRoom limit (c.depth + 1))
    (hargument : ∀ c' : Cursor, c'.tokens = middle → c.descend.Quiet c' →
      ReadsAs c' e rest (factorWithin limit size c')) :
    ReadsAs c (.call f e) rest (factorWithin limit (size + 1) c) := by
  have hstart : c.Quiet (c.advance.note (.factor (.function f))) :=
    c.quiet_advance.trans (Cursor.quiet_note _ _)
  have hnested : ReadsAs (c.advance.note (.factor (.function f))) e rest
      ((factorWithin limit size).nested limit (c.advance.note (.factor (.function f)))) :=
    Production.nested_readsAs hroom (hargument _ (by simp [htokens]) ⟨rfl, rfl, rfl, rfl⟩)
  rw [factorWithin_call htokens]
  exact ⟨by simp only [hnested.expr], hnested.tokens, hstart.trans hnested.quiet⟩

theorem factorWithin_group {b : Bracket} (h : c.tokens = b.opening :: rest) :
    factorWithin limit (size + 1) c =
      (b.wrap ((expressionOf (factorWithin limit size)).nested limit
          (c.advance.note (.factor b.opening))).1,
        ((expressionOf (factorWithin limit size)).nested limit
          (c.advance.note (.factor b.opening))).2.advance) := by
  cases b <;> simp_all [factorWithin, Bracket.opening, Bracket.wrap]

theorem factorWithin_group_readsAs {b : Bracket} {e : Expr} {middle : List Token} (token : Token)
    (htokens : c.tokens = b.opening :: middle) (hroom : HasRoom limit (c.depth + 1))
    (hinner : ∀ c' : Cursor, c'.tokens = middle → c.descend.Quiet c' →
      ReadsAs c' e (token :: rest) (expressionOf (factorWithin limit size) c')) :
    ReadsAs c (b.wrap e) rest (factorWithin limit (size + 1) c) := by
  have hstart : c.Quiet (c.advance.note (.factor b.opening)) :=
    c.quiet_advance.trans (Cursor.quiet_note _ _)
  have hnested : ReadsAs (c.advance.note (.factor b.opening)) e (token :: rest)
      ((expressionOf (factorWithin limit size)).nested limit
        (c.advance.note (.factor b.opening))) :=
    Production.nested_readsAs hroom (hinner _ (by simp [htokens]) ⟨rfl, rfl, rfl, rfl⟩)
  rw [factorWithin_group htokens]
  refine ⟨by simp only [hnested.expr], by simp [hnested.tokens], ?_⟩
  exact (hstart.trans hnested.quiet).trans (Cursor.quiet_advance _)

theorem joined_alone_readsAs {level : Level} {operand : Production} {e : Expr}
    (hstop : StopsAt (some level) rest) (h : ReadsAs c e rest (operand c)) :
    ReadsAs c e rest (joined level operand c) := by
  have hpeek : (operand c).2.peekOperator? level = none :=
    StopsAt.peekOperator? (by rwa [h.tokens])
  rw [joined_eq, hpeek]
  exact h

theorem joined_readsAs {level : Level} {op : Operator} (hop : op.level = level)
    {operand : Production} {left right : Expr} {middle : List Token}
    (hleft : ReadsAs c left (.operator op :: middle) (operand c))
    (hright : ∀ c' : Cursor, c'.tokens = middle → c.Quiet c' →
      ReadsAs c' right rest (operand c')) :
    ReadsAs c (.binary op left right) rest (joined level operand c) := by
  have hpeek : (operand c).2.peekOperator? level = some op :=
    Cursor.peekOperator?_eq hop hleft.tokens
  have hadvance : c.Quiet (operand c).2.advance := hleft.quiet.trans (Cursor.quiet_advance _)
  have hsecond := hright (operand c).2.advance (by simp [hleft.tokens]) hadvance
  rw [joined_eq, hpeek]
  exact ⟨by simp only [hleft.expr, hsecond.expr], hsecond.tokens, hadvance.trans hsecond.quiet⟩

theorem expressionOf_alone_readsAs {factor : Production} {e : Expr}
    (hstop : StopsAt (some .sum) rest) (h : ReadsAs c e rest (termOf factor c)) :
    ReadsAs c e rest (expressionOf factor c) := by
  have hpeek : (termOf factor c).2.peekOperator? .sum = none :=
    StopsAt.peekOperator? (by rwa [h.tokens])
  rw [expressionOf_eq, hpeek]
  exact h

theorem expressionOf_sum_readsAs {op : Operator} (hop : op.level = .sum) {factor : Production}
    {left right : Expr} {middle : List Token} (hmissing : left.isMissing = false)
    (hoperation : left.isOperation = false)
    (hleft : ReadsAs c left (.operator op :: middle) (termOf factor c))
    (hright : ∀ c' : Cursor, c'.tokens = middle → c.Quiet c' →
      ReadsAs c' right rest (termOf factor c')) :
    ReadsAs c (.binary op left right) rest (expressionOf factor c) := by
  have hpeek : (termOf factor c).2.peekOperator? .sum = some op :=
    Cursor.peekOperator?_eq hop hleft.tokens
  have hadvance : c.Quiet (termOf factor c).2.advance := hleft.quiet.trans (Cursor.quiet_advance _)
  have hsecond := hright (termOf factor c).2.advance (by simp [hleft.tokens]) hadvance
  rw [expressionOf_eq, hpeek, hleft.expr]
  simp only [hmissing, hoperation, Bool.or_self, Bool.false_eq_true, if_false]
  exact ⟨by simp only [hsecond.expr], hsecond.tokens, hadvance.trans hsecond.quiet⟩

theorem expressionOf_signed_readsAs {sign : Sign} {factor : Production} {operand : Expr}
    (middle : List Token)
    (hbefore : ReadsAs c .missing (.operator sign.operator :: middle) (termOf factor c))
    (hoperand : ∀ c' : Cursor, c'.tokens = middle → c.Quiet c' →
      ReadsAs c' operand rest (termOf factor c')) :
    ReadsAs c (.signed sign operand) rest (expressionOf factor c) := by
  have hpeek : (termOf factor c).2.peekOperator? .sum = some sign.operator :=
    Cursor.peekOperator?_eq (by cases sign <;> rfl) hbefore.tokens
  have hadvance : c.Quiet ((termOf factor c).2.advance.note (.sign sign.operator)) :=
    (hbefore.quiet.trans (Cursor.quiet_advance _)).trans (Cursor.quiet_note _ _)
  have hterm := hoperand ((termOf factor c).2.advance.note (.sign sign.operator))
    (by simp [hbefore.tokens]) hadvance
  rw [expressionOf_eq, hpeek, hbefore.expr]
  simp only [Expr.isMissing, Bool.true_or, if_true, signedTerm_eq, signCursor,
    Operator.sign?_operator]
  exact ⟨by simp only [hterm.expr], hterm.tokens, hadvance.trans hterm.quiet⟩

theorem termOf_of_sign {sign : Sign} (h : c.tokens = .operator sign.operator :: rest) :
    termOf (factorWithin limit size) c = (.missing, c) := by
  have hfactor : factorWithin limit size c = (.missing, c) := by
    apply factorWithin_of_not_startsFactor
    simp [h, Token.startsFactor]
  have hpower : c.peekOperator? .power = none := by
    cases sign <;> simp [Cursor.peekOperator?, h, Sign.operator, Operator.level]
  have hproduct : c.peekOperator? .product = none := by
    cases sign <;> simp [Cursor.peekOperator?, h, Sign.operator, Operator.level]
  simp only [termOf, powerOf, joined_eq, hfactor, hpower, hproduct]

/-- No operand is missing, or none can be mistaken for what comes after it. -/
def Gapless {r : Option Level} (p : Phrase r) (rest : List Token) : Prop :=
  p.expr.hasMissing = false ∨
    (.bar ∉ p.tokens ∧ ∀ token, rest.head? = some token → token.startsFactor = false)

namespace Gapless

theorem inner {b : Bracket} {p : Phrase (some .sum)} {token : Token}
    (h : Gapless (.group b p (some token)) rest) (hcloser : Phrase.AnyCloser b token) :
    Gapless p (token :: rest) := by
  rcases h with h | ⟨hbar, _⟩
  · left
    cases b <;> exact h
  · right
    simp only [Phrase.tokens, Option.toList_some, List.mem_cons, List.mem_append,
      List.not_mem_nil, or_false, not_or] at hbar
    obtain ⟨_, hinner, htoken⟩ := hbar
    refine ⟨hinner, ?_⟩
    intro next hnext
    obtain rfl : token = next := Option.some.inj hnext
    rcases hcloser with rfl | rfl
    · rfl
    · exact absurd rfl htoken

theorem left {level : Level} {op : Operator} {hop : op.level = level}
    {p q : Phrase level.operand} (h : Gapless (.joined level op hop p q) rest)
    (rest' : List Token) : Gapless p (.operator op :: rest') := by
  rcases h with h | ⟨hbar, _⟩
  · left
    simp only [Phrase.expr, Expr.hasMissing, Bool.or_eq_false_iff] at h
    exact h.1
  · right
    refine ⟨fun hp => hbar (List.mem_append_left _ hp), ?_⟩
    intro next hnext
    obtain rfl : Token.operator op = next := Option.some.inj hnext
    rfl

theorem right {level : Level} {op : Operator} {hop : op.level = level}
    {p q : Phrase level.operand} (h : Gapless (.joined level op hop p q) rest) :
    Gapless q rest := by
  rcases h with h | ⟨hbar, hrest⟩
  · left
    simp only [Phrase.expr, Expr.hasMissing, Bool.or_eq_false_iff] at h
    exact h.2
  · right
    exact ⟨fun hq => hbar (List.mem_append_right _ (List.mem_cons_of_mem _ hq)), hrest⟩

theorem operand {sign : Sign} {before p : Phrase (some .product)}
    (h : Gapless (.signed sign before p) rest) : Gapless p rest := by
  rcases h with h | ⟨hbar, hrest⟩
  · exact .inl h
  · right
    exact ⟨fun hp => hbar (List.mem_append_right _ (List.mem_cons_of_mem _ hp)), hrest⟩

theorem argument {f : Elementary} {p : Phrase none} (h : Gapless (.call f p) rest) :
    Gapless p rest := by
  rcases h with h | ⟨hbar, hrest⟩
  · exact .inl h
  · exact .inr ⟨fun hp => hbar (List.mem_cons_of_mem _ hp), hrest⟩

end Gapless

theorem production_readsAs {r : Option Level} {p : Phrase r} (hclosed : p.Closed Phrase.AnyCloser)
    (hdecided : p.Decided) (htokens : c.tokens = p.tokens ++ rest)
    (hsize : c.tokens.length ≤ size) (hroom : HasRoom limit (c.depth + p.nesting))
    (hstop : StopsAt r rest) (hgap : Gapless p rest) :
    ReadsAs c p.expr rest (production limit size r c) := by
  induction p generalizing size c rest with
  | missing =>
    have hstart : ∀ token, c.tokens.head? = some token → token.startsFactor = false := by
      rcases hgap with hgap | ⟨_, hgap⟩
      · exact absurd hgap (by simp [Phrase.expr, Expr.hasMissing])
      · simpa [htokens, Phrase.tokens] using hgap
    rw [production, factorWithin_of_not_startsFactor hstart]
    exact ⟨rfl, htokens, Cursor.Quiet.refl c⟩
  | number value =>
    obtain ⟨size, rfl, _⟩ := exists_size_eq_succ htokens hsize
    simp only [production, factorWithin, htokens]
    exact ⟨rfl, by simp [htokens, Phrase.tokens], c.quiet_advance.trans (Cursor.quiet_note _ _)⟩
  | letter v =>
    obtain ⟨size, rfl, _⟩ := exists_size_eq_succ htokens hsize
    simp only [production, factorWithin, htokens]
    exact ⟨rfl, by simp [htokens, Phrase.tokens], c.quiet_advance.trans (Cursor.quiet_note _ _)⟩
  | call f argument ih =>
    obtain ⟨size, rfl, hlength⟩ := exists_size_eq_succ htokens hsize
    simp only [Phrase.nesting, ← Nat.add_assoc] at hroom
    apply factorWithin_call_readsAs htokens (hroom.of_le (by omega))
    intro c' htokens' hquiet
    exact ih hclosed hdecided htokens' (by rwa [htokens'])
      (hroom.of_le (by simp [hquiet.depth]; omega)) trivial hgap.argument
  | group b inner closer ih =>
    obtain ⟨⟨token, rfl, hcloser⟩, hinner⟩ := hclosed
    simp only [Phrase.tokens, Option.toList_some, List.cons_append, List.append_assoc,
      List.nil_append] at htokens
    obtain ⟨size, rfl, hlength⟩ := exists_size_eq_succ htokens hsize
    simp only [Phrase.nesting, ← Nat.add_assoc] at hroom
    apply factorWithin_group_readsAs token htokens (hroom.of_le (by omega))
    intro c' htokens' hquiet
    have hstop' : StopsAt (some .sum) (token :: rest) := by
      rcases hcloser with rfl | rfl <;> trivial
    exact ih hinner hdecided htokens' (by rwa [htokens'])
      (hroom.of_le (by simp [hquiet.depth]; omega)) hstop' (hgap.inner hcloser)
  | alone level operand ih =>
    have hoperand := ih hclosed hdecided htokens hsize hroom hstop.operand hgap
    cases level with
    | power => exact joined_alone_readsAs hstop hoperand
    | product => exact joined_alone_readsAs hstop hoperand
    | sum => exact expressionOf_alone_readsAs hstop hoperand
  | joined level op hop left right ihl ihr =>
    simp only [Phrase.tokens, List.append_assoc, List.cons_append] at htokens
    have hlength : right.tokens.length + rest.length ≤ size := by
      simp only [htokens, List.length_append, List.length_cons] at hsize
      omega
    simp only [Phrase.nesting] at hroom
    have hleft := ihl hclosed.1 hdecided.2.1 htokens hsize (hroom.of_le (by omega))
      (stopsAt_operand_operator hop _) (hgap.left _)
    have hright (c' : Cursor) (htokens' : c'.tokens = right.tokens ++ rest) (hquiet : c.Quiet c') :=
      ihr hclosed.2 hdecided.2.2 htokens' (by simpa [htokens'] using hlength)
        (hroom.of_le (by rw [hquiet.depth]; omega)) hstop.operand hgap.right
    cases level with
    | power => exact joined_readsAs hop hleft hright
    | product => exact joined_readsAs hop hleft hright
    | sum =>
      obtain ⟨hmissing, hoperation⟩ := hdecided.1 rfl
      exact expressionOf_sum_readsAs hop hmissing hoperation hleft hright
  | signed sign before operand ihb iho =>
    simp only [Phrase.tokens, hclosed.1, List.nil_append, List.cons_append] at htokens
    have hlength : operand.tokens.length + rest.length ≤ size := by
      simp only [htokens, List.length_append, List.length_cons] at hsize
      omega
    simp only [Phrase.nesting] at hroom
    apply expressionOf_signed_readsAs (operand.tokens ++ rest)
    · rw [termOf_of_sign htokens]
      exact ⟨rfl, htokens, Cursor.Quiet.refl c⟩
    · intro c' htokens' hquiet
      exact iho hclosed.2 hdecided.2.2 htokens' (by simpa [htokens'] using hlength)
        (hroom.of_le (by rw [hquiet.depth]; omega)) hstop.operand hgap.operand

end Formula.Single
