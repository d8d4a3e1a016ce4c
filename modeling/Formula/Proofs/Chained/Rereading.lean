import Formula.Proofs.Grammar.Outcome

/-!
# Chains read phrases back

The reader of chains takes a phrase without missing operands for what it is. If a group of the
phrase is closed by the token of the other kind, then the reader counts it as unclosed.
-/

set_option autoImplicit false

namespace Formula.Chained

def production (limit : Option Nat) (size : Nat) : Option Level → Production
  | none => factorWithin limit size
  | some .power => powerOf limit (factorWithin limit size)
  | some .product => termOf limit (factorWithin limit size)
  | some .sum => expressionOf limit (factorWithin limit size)

variable {limit : Option Nat} {size : Nat} {c : Cursor} {rest middle : List Token}
variable {factor operand : Production} {e left right : Expr} {F G : Prop}

/-- The expression is read, or else a group is counted as unclosed, and there is a flaw. -/
def ReadsUnless (flawed : Prop) (c : Cursor) (e : Expr) (rest : List Token)
    (result : Expr × Cursor) : Prop :=
  ReadsAs c e rest result ∨ (flawed ∧ c.unclosed < result.2.unclosed)

theorem ReadsUnless.imp {result : Expr × Cursor} (h : ReadsUnless F c e rest result)
    (hFG : F → G) : ReadsUnless G c e rest result := by
  rcases h with h | ⟨hF, hlt⟩
  · exact .inl h
  · exact .inr ⟨hFG hF, hlt⟩

/-- What is left unclosed stays so, however the reader goes on. -/
theorem ReadsUnless.bind {result result' : Expr × Cursor} {e' : Expr} {rest' : List Token}
    (h : ReadsUnless F c e rest result) (hreach : result.2.Reaches result'.2)
    (hnext : ReadsAs c e rest result → ReadsUnless F c e' rest' result') :
    ReadsUnless F c e' rest' result' := by
  rcases h with h | ⟨hF, hlt⟩
  · exact hnext h
  · exact .inr ⟨hF, Nat.lt_of_lt_of_le hlt hreach.unclosed⟩

theorem takeFold_of_operator {level : Level} {op : Operator} (hop : op.level = level)
    (htokens : c.tokens = .operator op :: rest) (hroom : HasRoom limit (c.depth + 1)) :
    c.takeFold limit level = (some op, c.advance.descend) := by
  simp [Cursor.takeFold, Cursor.peekOperator?_eq hop htokens, Cursor.isFull_eq_false hroom]

theorem foldWithin_of_stopsAt {level : Level} (hstop : StopsAt (some level) c.tokens)
    (first : Expr) : foldWithin limit level operand size first c = (first, c) :=
  foldWithin_of_peekOperator? hstop.peekOperator? first

theorem fold_alone {level : Level} (hstop : StopsAt (some level) c.tokens) (first : Expr) :
    fold limit level operand first c = (first, c) := by
  simp only [fold, foldWithin_of_stopsAt hstop]

theorem powerWithin_of_stopsAt (hstop : StopsAt (some .power) (factor c).2.tokens) :
    powerWithin limit factor size c = factor c :=
  powerWithin_of_peekOperator? hstop.peekOperator?

theorem fold_joined {level : Level} {op : Operator} (hframed : operand.Framed)
    (hop : op.level = level) (htokens : c.tokens = .operator op :: middle)
    (hroom : HasRoom limit (c.depth + 1)) (hstop : StopsAt (some level) rest)
    (hright : ∀ c' : Cursor, c'.tokens = middle → c.descend.Quiet c' →
      ReadsUnless F c' right rest (operand c')) :
    ReadsUnless F c (.binary op left right) rest (fold limit level operand left c) := by
  have hlink : c.descend.Quiet c.advance.descend := Cursor.quiet_link (Cursor.Quiet.refl c)
  have hlength : c.tokens.length = middle.length + 1 := by simp [htokens]
  simp only [fold, hlength, foldWithin_succ, takeFold_of_operator hop htokens hroom]
  rcases hright c.advance.descend (by simp [htokens]) hlink with hright | ⟨hF, hlt⟩
  · left
    have hstop' : StopsAt (some level) (operand c.advance.descend).2.tokens := by
      rwa [hright.tokens]
    rw [foldWithin_of_stopsAt hstop', hright.expr]
    exact ⟨rfl, hright.tokens, Cursor.quiet_withDepth (hlink.trans hright.quiet) rfl⟩
  · right
    refine ⟨hF, Nat.lt_of_lt_of_le hlt ?_⟩
    exact (foldWithin_reaches limit level hframed _ _ _).unclosed

theorem powerWithin_alone (hframed : factor.Framed) (hstop : StopsAt (some .power) rest)
    (h : ReadsUnless F c e rest (factor c)) :
    ReadsUnless F c e rest (powerWithin limit factor size c) := by
  apply h.bind (powerWithin_reaches hframed c)
  intro h
  rw [powerWithin_of_stopsAt (by rwa [h.tokens])]
  exact .inl h

theorem powerWithin_joined {op : Operator} (hframed : factor.Framed) (hop : op.level = .power)
    (hroom : HasRoom limit (c.depth + 1)) (hstop : StopsAt (some .power) rest)
    (hleft : ReadsUnless F c left (.operator op :: middle) (factor c))
    (hright : ∀ c' : Cursor, c'.tokens = middle → c.descend.Quiet c' →
      ReadsUnless F c' right rest (factor c')) :
    ReadsUnless F c (.binary op left right) rest (powerWithin limit factor (size + 1) c) := by
  apply hleft.bind (powerWithin_reaches hframed c)
  intro hleft
  have hlink : c.descend.Quiet (factor c).2.advance.descend := Cursor.quiet_link hleft.quiet
  have ht : (factor c).2.takeFold limit .power = (some op, (factor c).2.advance.descend) :=
    takeFold_of_operator hop hleft.tokens (by rwa [hleft.quiet.depth])
  have hexponent : ReadsUnless F _ right rest (powerWithin limit factor size _) :=
    powerWithin_alone hframed hstop (hright _ (by simp [hleft.tokens]) hlink)
  rw [powerWithin_succ, ht]
  rcases hexponent with hexponent | ⟨hF, hlt⟩
  · left
    refine ⟨by simp only [hleft.expr, hexponent.expr], hexponent.tokens, ?_⟩
    exact Cursor.quiet_withDepth (hlink.trans hexponent.quiet) hleft.quiet.depth
  · right
    rw [hlink.unclosed] at hlt
    exact ⟨hF, hlt⟩

theorem termOf_alone (hframed : factor.Framed) (hstop : StopsAt (some .product) rest)
    (h : ReadsUnless F c e rest (powerOf limit factor c)) :
    ReadsUnless F c e rest (termOf limit factor c) := by
  have hpower := powerOf_framed limit hframed
  rw [termOf_eq]
  apply h.bind ((fold_framed limit .product hpower _).reaches _)
  intro h
  rw [fold_alone (by rwa [h.tokens])]
  exact .inl h

theorem fold_joined_of_readsAs {level : Level} {op : Operator} {result : Expr × Cursor}
    (hframed : operand.Framed) (hop : op.level = level) (hroom : HasRoom limit (c.depth + 1))
    (hstop : StopsAt (some level) rest)
    (hleft : ReadsUnless F c left (.operator op :: middle) result)
    (hright : ∀ c' : Cursor, c'.tokens = middle → c.descend.Quiet c' →
      ReadsUnless F c' right rest (operand c')) :
    ReadsUnless F c (.binary op left right) rest
      (fold limit level operand result.1 result.2) := by
  apply hleft.bind ((fold_framed limit level hframed _).reaches _)
  intro hleft
  have hdescend : c.descend.Quiet result.2.descend := hleft.quiet.descend
  have hfold : ReadsUnless F result.2 (.binary op left right) rest
      (fold limit level operand left result.2) :=
    fold_joined hframed hop hleft.tokens (by rwa [hleft.quiet.depth]) hstop
      (fun c' htokens hquiet => hright c' htokens (hdescend.trans hquiet))
  rw [hleft.expr]
  rcases hfold with hfold | ⟨hF, hlt⟩
  · exact .inl ⟨hfold.expr, hfold.tokens, hleft.quiet.trans hfold.quiet⟩
  · exact .inr ⟨hF, by rwa [← hleft.quiet.unclosed]⟩

theorem peekSign?_of_phrase {r : Option Level} {p : Phrase r} (hr : r ≠ some .sum)
    (hmissing : p.expr.hasMissing = false) (h : c.tokens = p.tokens ++ rest) :
    peekSign? c = none := by
  obtain ⟨token, tokens', hp, hstart⟩ := p.startsFactor_of_not_hasMissing hr hmissing
  rw [hp] at h
  cases token <;> simp_all [peekSign?, Cursor.peekOperator?, Token.startsFactor]

theorem peekSign?_of_sign {sign : Sign} (h : c.tokens = .operator sign.operator :: rest) :
    peekSign? c = some sign := by
  cases sign <;>
    simp [peekSign?, Cursor.peekOperator?, h, Sign.operator, Operator.level, Operator.sign?]

theorem expressionOf_alone (hframed : factor.Framed) (hstop : StopsAt (some .sum) rest)
    (hsign : peekSign? c = none) (h : ReadsUnless F c e rest (termOf limit factor c)) :
    ReadsUnless F c e rest (expressionOf limit factor c) := by
  have hterm := termOf_framed limit hframed
  rw [expressionOf_eq, leadingTerm, hsign]
  apply h.bind ((fold_framed limit .sum hterm _).reaches _)
  intro h
  rw [fold_alone (by rwa [h.tokens])]
  exact .inl h

theorem expressionOf_signed {sign : Sign} (hframed : factor.Framed)
    (hstop : StopsAt (some .sum) rest) (htokens : c.tokens = .operator sign.operator :: middle)
    (hoperand : ∀ c' : Cursor, c'.tokens = middle → c.Quiet c' →
      ReadsUnless F c' e rest (termOf limit factor c')) :
    ReadsUnless F c (.signed sign e) rest (expressionOf limit factor c) := by
  have hterm := termOf_framed limit hframed
  have hfold := (fold_framed limit .sum hterm
    (.signed sign (termOf limit factor c.advance).1)).reaches (termOf limit factor c.advance).2
  rw [expressionOf_eq, leadingTerm, peekSign?_of_sign htokens]
  rcases hoperand c.advance (by simp [htokens]) c.quiet_advance with h | ⟨hF, hlt⟩
  · left
    rw [fold_alone (by rwa [h.tokens])]
    exact ⟨by simp only [h.expr], h.tokens, c.quiet_advance.trans h.quiet⟩
  · exact .inr ⟨hF, Nat.lt_of_lt_of_le hlt hfold.unclosed⟩

theorem factorWithin_call {f : Elementary} (h : c.tokens = .function f :: rest) :
    factorWithin limit (size + 1) c =
      (.call f ((factorWithin limit size).nested limit
          (c.advance.note (.factor (.function f)))).1,
        ((factorWithin limit size).nested limit (c.advance.note (.factor (.function f)))).2) := by
  simp [factorWithin, h]

theorem factorWithin_group {b : Bracket} (h : c.tokens = b.opening :: rest) :
    factorWithin limit (size + 1) c =
      (b.wrap ((expressionOf limit (factorWithin limit size)).nested limit
          (c.advance.note (.factor b.opening))).1,
        close b.closing ((expressionOf limit (factorWithin limit size)).nested limit
          (c.advance.note (.factor b.opening))).2) := by
  cases b <;> simp_all [factorWithin, Bracket.opening, Bracket.wrap, Bracket.closing]

theorem nested_readsUnless {read : Production} (hroom : HasRoom limit (c.depth + 1))
    (h : ReadsUnless F c.descend e rest (read c.descend)) :
    ReadsUnless F c e rest (read.nested limit c) := by
  rcases h with h | ⟨hF, hlt⟩
  · exact .inl (Production.nested_readsAs hroom h)
  · right
    refine ⟨hF, ?_⟩
    unfold Production.nested
    rw [Cursor.isFull_eq_false hroom, if_neg Bool.false_ne_true]
    exact hlt

theorem factorWithin_call_readsUnless {f : Elementary} (htokens : c.tokens = .function f :: middle)
    (hroom : HasRoom limit (c.depth + 1))
    (hargument : ∀ c' : Cursor, c'.tokens = middle → c.descend.Quiet c' →
      ReadsUnless F c' e rest (factorWithin limit size c')) :
    ReadsUnless F c (.call f e) rest (factorWithin limit (size + 1) c) := by
  have hstart : c.Quiet (c.advance.note (.factor (.function f))) :=
    c.quiet_advance.trans (Cursor.quiet_note _ _)
  have hnested : ReadsUnless F (c.advance.note (.factor (.function f))) e rest
      ((factorWithin limit size).nested limit (c.advance.note (.factor (.function f)))) :=
    nested_readsUnless hroom (hargument _ (by simp [htokens]) ⟨rfl, rfl, rfl, rfl⟩)
  rw [factorWithin_call htokens]
  rcases hnested with hnested | hnested
  · exact .inl ⟨by simp only [hnested.expr], hnested.tokens, hstart.trans hnested.quiet⟩
  · exact .inr hnested

/-- A group that is closed by some token, perhaps of the other kind. -/
theorem factorWithin_group_readsUnless {b : Bracket} (token : Token)
    (htokens : c.tokens = b.opening :: middle) (hroom : HasRoom limit (c.depth + 1))
    (hcloser : token ≠ b.closing → F)
    (hinner : ∀ c' : Cursor, c'.tokens = middle → c.descend.Quiet c' →
      ReadsUnless F c' e (token :: rest) (expressionOf limit (factorWithin limit size) c')) :
    ReadsUnless F c (b.wrap e) rest (factorWithin limit (size + 1) c) := by
  have hstart : c.Quiet (c.advance.note (.factor b.opening)) :=
    c.quiet_advance.trans (Cursor.quiet_note _ _)
  have hnested : ReadsUnless F (c.advance.note (.factor b.opening)) e (token :: rest)
      ((expressionOf limit (factorWithin limit size)).nested limit
        (c.advance.note (.factor b.opening))) :=
    nested_readsUnless hroom (hinner _ (by simp [htokens]) ⟨rfl, rfl, rfl, rfl⟩)
  rw [factorWithin_group htokens]
  rcases hnested with hnested | ⟨hF, hlt⟩
  · by_cases heq : token = b.closing
    · left
      have hclose := hnested.tokens
      simp only [close, hclose, List.head?_cons, heq, if_true]
      refine ⟨by simp only [hnested.expr], by simp [hclose], ?_⟩
      exact (hstart.trans hnested.quiet).trans (Cursor.quiet_advance _)
    · right
      refine ⟨hcloser heq, ?_⟩
      have hclose := hnested.tokens
      have hne : ¬ some token = some b.closing := fun h => heq (Option.some.inj h)
      simp only [close, hclose, List.head?_cons, if_neg hne]
      exact Nat.lt_succ_of_le (Nat.le_of_eq (hstart.trans hnested.quiet).unclosed.symm)
  · exact .inr ⟨hF, Nat.lt_of_lt_of_le hlt (reaches_close _ _).unclosed⟩

theorem production_readsUnless {r : Option Level} {p : Phrase r}
    (hclosed : p.Closed Phrase.AnyCloser) (hmissing : p.expr.hasMissing = false)
    (htokens : c.tokens = p.tokens ++ rest) (hsize : c.tokens.length ≤ size)
    (hroom : HasRoom limit (c.depth + p.nesting)) (hstop : StopsAt r rest) :
    ReadsUnless (¬ p.Closed Phrase.OwnCloser) c p.expr rest (production limit size r c) := by
  have hframed := factorWithin_framed limit size
  induction p generalizing size c rest with
  | missing => simp [Phrase.expr, Expr.hasMissing] at hmissing
  | number value =>
    obtain ⟨size, rfl, _⟩ := exists_size_eq_succ htokens hsize
    simp only [production, factorWithin, htokens]
    exact .inl ⟨rfl, by simp [htokens, Phrase.tokens],
      c.quiet_advance.trans (Cursor.quiet_note _ _)⟩
  | letter v =>
    obtain ⟨size, rfl, _⟩ := exists_size_eq_succ htokens hsize
    simp only [production, factorWithin, htokens]
    exact .inl ⟨rfl, by simp [htokens, Phrase.tokens],
      c.quiet_advance.trans (Cursor.quiet_note _ _)⟩
  | call f argument ih =>
    obtain ⟨size, rfl, hlength⟩ := exists_size_eq_succ htokens hsize
    simp only [Phrase.nesting, ← Nat.add_assoc] at hroom
    apply factorWithin_call_readsUnless htokens (hroom.of_le (by omega))
    intro c' htokens' hquiet
    exact ih hclosed hmissing htokens' (by rwa [htokens'])
      (hroom.of_le (by simp [hquiet.depth]; omega)) trivial (factorWithin_framed limit size)
  | group b inner closer ih =>
    obtain ⟨⟨token, rfl, hcloser⟩, hinner⟩ := hclosed
    simp only [Phrase.tokens, Option.toList_some, List.cons_append, List.append_assoc,
      List.nil_append] at htokens
    obtain ⟨size, rfl, hlength⟩ := exists_size_eq_succ htokens hsize
    simp only [Phrase.nesting, ← Nat.add_assoc] at hroom
    have hmissing' : inner.expr.hasMissing = false := by cases b <;> exact hmissing
    have hstop' : StopsAt (some .sum) (token :: rest) := by
      rcases hcloser with rfl | rfl <;> trivial
    apply factorWithin_group_readsUnless token htokens (hroom.of_le (by omega))
    · rintro hne ⟨⟨token', heq, hown⟩, _⟩
      obtain rfl := Option.some.inj heq
      exact hne hown
    · intro c' htokens' hquiet
      have hread := ih hinner hmissing' htokens' (by rwa [htokens'])
        (hroom.of_le (by simp [hquiet.depth]; omega)) hstop' (factorWithin_framed limit size)
      exact hread.imp fun hflaw h => hflaw h.2
  | alone level operand ih =>
    have hoperand := ih hclosed hmissing htokens hsize hroom hstop.operand hframed
    cases level with
    | power => exact powerWithin_alone hframed hstop hoperand
    | product => exact termOf_alone hframed hstop hoperand
    | sum =>
      have hsign : peekSign? c = none :=
        peekSign?_of_phrase (p := operand) (by simp [Level.operand]) hmissing htokens
      exact expressionOf_alone hframed hstop hsign hoperand
  | joined level op hop left right ihl ihr =>
    simp only [Phrase.tokens, List.append_assoc, List.cons_append] at htokens
    have hlength : right.tokens.length + rest.length ≤ size := by
      simp only [htokens, List.length_append, List.length_cons] at hsize
      omega
    simp only [Phrase.nesting] at hroom
    have hmissing' : left.expr.hasMissing = false ∧ right.expr.hasMissing = false := by
      simpa [Phrase.expr, Expr.hasMissing] using hmissing
    have hleft := (ihl hclosed.1 hmissing'.1 htokens hsize (hroom.of_le (by omega))
      (stopsAt_operand_operator hop _) hframed).imp
        (G := ¬ (Phrase.joined level op hop left right).Closed Phrase.OwnCloser)
        fun hflaw h => hflaw h.1
    have hright (c' : Cursor) (htokens' : c'.tokens = right.tokens ++ rest)
        (hquiet : c.descend.Quiet c') :=
      (ihr hclosed.2 hmissing'.2 htokens' (by simpa [htokens'] using hlength)
        (hroom.of_le (by simp [hquiet.depth]; omega)) hstop.operand hframed).imp
        (G := ¬ (Phrase.joined level op hop left right).Closed Phrase.OwnCloser)
        fun hflaw h => hflaw h.2
    have hroom' : HasRoom limit (c.depth + 1) := hroom.of_le (by omega)
    cases level with
    | power =>
      have hpos : c.tokens.length = c.tokens.length - 1 + 1 := by
        simp only [htokens, List.length_append, List.length_cons]
        omega
      rw [production, powerOf, hpos]
      exact powerWithin_joined hframed hop hroom' hstop hleft hright
    | product =>
      exact fold_joined_of_readsAs (powerOf_framed limit hframed) hop hroom' hstop hleft hright
    | sum =>
      have hsign : peekSign? c = none :=
        peekSign?_of_phrase (by simp [Level.operand]) hmissing'.1 htokens
      rw [production, expressionOf_eq, leadingTerm, hsign]
      exact fold_joined_of_readsAs (termOf_framed limit hframed) hop hroom' hstop hleft hright
  | signed sign before operand ihb iho =>
    simp only [Phrase.tokens, hclosed.1, List.nil_append, List.cons_append] at htokens
    have hlength : operand.tokens.length + rest.length ≤ size := by
      simp only [htokens, List.length_append, List.length_cons] at hsize
      omega
    simp only [Phrase.nesting] at hroom
    apply expressionOf_signed hframed hstop htokens
    intro c' htokens' hquiet
    have hread := iho hclosed.2 hmissing htokens' (by simpa [htokens'] using hlength)
      (hroom.of_le (by rw [hquiet.depth]; omega)) hstop.operand hframed
    exact hread.imp fun hflaw h => hflaw h.2

end Formula.Chained
