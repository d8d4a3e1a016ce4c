import Formula.Proofs.Grammar.Frame

/-!
# The language of chains

`Derives` is the grammar of chains without a place for missing operands. The grammar is
ambiguous: a sign can stand before the whole first term or before its first power. Whatever
the reader of chains reads without a report is a word of this language.
-/

set_option autoImplicit false

namespace Formula.Chained

/-- What the words of the language are for. Links are any number of operators of a level, each
with its right operand. -/
inductive Nonterminal where
  | expression
  | term
  | power
  | factor
  | links (level : Level)
  deriving DecidableEq

def Nonterminal.operand : Level → Nonterminal
  | .sum => term
  | .product => power
  | .power => factor

inductive Derives : Nonterminal → List Token → Prop where
  | expression {first rest : List Token} (hfirst : Derives .term first)
      (hrest : Derives (.links .sum) rest) : Derives .expression (first ++ rest)
  | signedExpression (sign : Sign) {first rest : List Token} (hfirst : Derives .term first)
      (hrest : Derives (.links .sum) rest) :
      Derives .expression (.operator sign.operator :: (first ++ rest))
  | term {first rest : List Token} (hfirst : Derives .power first)
      (hrest : Derives (.links .product) rest) : Derives .term (first ++ rest)
  | noLink (level : Level) : Derives (.links level) []
  | link {level : Level} {op : Operator} (hop : op.level = level) {operand rest : List Token}
      (hoperand : Derives (.operand level) operand) (hrest : Derives (.links level) rest) :
      Derives (.links level) (.operator op :: (operand ++ rest))
  | base {base : List Token} (hbase : Derives .factor base) : Derives .power base
  | raised {base exponent : List Token} (hbase : Derives .factor base)
      (hexponent : Derives .power exponent) :
      Derives .power (base ++ .operator .power :: exponent)
  | number (value : Float) : Derives .factor [.number value]
  | letter (v : Letter) : Derives .factor [.letter v]
  | paren {inner : List Token} (hinner : Derives .expression inner) :
      Derives .factor (.openParen :: (inner ++ [.closeParen]))
  | call (f : Elementary) {argument : List Token} (hargument : Derives .factor argument) :
      Derives .factor (.function f :: argument)
  | bar {inner : List Token} (hinner : Derives .expression inner) :
      Derives .factor (.bar :: (inner ++ [.bar]))
  | signedPower (sign : Sign) {operand : List Token} (hoperand : Derives .power operand) :
      Derives .factor (.operator sign.operator :: operand)

/-- Without a missing operand and an unclosed group, the production reads a word. -/
def Sound (n : Nonterminal) (p : Production) : Prop :=
  ∀ c, (p c).1.hasMissing = false → (p c).2.unclosed = c.unclosed →
    ∃ used, c.tokens = used ++ (p c).2.tokens ∧ Derives n used

variable {limit : Option Nat} {n : Nonterminal} {p factor : Production}

theorem Sound.nested (h : Sound n p) : Sound n (p.nested limit) := by
  intro c hmissing hunclosed
  unfold Production.nested at hmissing hunclosed ⊢
  split at hmissing
  · simp [Expr.hasMissing] at hmissing
  · rename_i hroom
    simp only [hroom, Bool.false_eq_true, if_false] at hunclosed ⊢
    exact h c.descend hmissing hunclosed

/-- Steps one after the other count no group as unclosed if they count none together. -/
theorem unclosed_eq_of_reaches {a b c : Cursor} (hab : a.Reaches b) (hbc : b.Reaches c)
    (h : c.unclosed = a.unclosed) : b.unclosed = a.unclosed ∧ c.unclosed = b.unclosed := by
  have h₁ := hab.unclosed
  have h₂ := hbc.unclosed
  omega

theorem Operator.eq_power_of_level {op : Operator} (h : op.level = .power) : op = .power := by
  cases op <;> simp_all [Operator.level]

theorem powerWithin_sound (hframed : factor.Framed) (h : Sound .factor factor) (size : Nat) :
    Sound .power (powerWithin limit factor size) := by
  induction size with
  | zero =>
    intro c hmissing hunclosed
    obtain ⟨used, htokens, hused⟩ := h c hmissing hunclosed
    exact ⟨used, htokens, .base hused⟩
  | succ size ih =>
    intro c hmissing hunclosed
    rw [powerWithin_succ] at hmissing hunclosed ⊢
    rcases (factor c).2.takeFold_ends_or_links limit .power with ⟨_, _, ht⟩ | ⟨op, hpeek, ht⟩
    · simp only [ht] at hmissing hunclosed ⊢
      obtain ⟨used, htokens, hused⟩ := h c hmissing hunclosed
      exact ⟨used, htokens, .base hused⟩
    · simp only [ht, Expr.hasMissing, Bool.or_eq_false_iff] at hmissing hunclosed ⊢
      obtain ⟨hlevel, hhead⟩ := Cursor.peekOperator?_eq_some hpeek
      obtain rfl := Operator.eq_power_of_level hlevel
      have hlink := ((hframed.reaches c).trans (Cursor.reaches_advance _)).trans
        (Cursor.reaches_descend _)
      have heq := unclosed_eq_of_reaches hlink ((powerWithin_framed limit hframed size).reaches _)
        hunclosed
      obtain ⟨base, hbase, hderives⟩ := h c hmissing.1 heq.1
      obtain ⟨exponent, hexponent, hderives'⟩ := ih _ hmissing.2 heq.2
      refine ⟨base ++ .operator .power :: exponent, ?_, .raised hderives hderives'⟩
      rw [List.append_assoc, List.cons_append, ← hexponent]
      exact hbase.trans (congrArg (base ++ ·) hhead)

theorem powerOf_sound (hframed : factor.Framed) (h : Sound .factor factor) :
    Sound .power (powerOf limit factor) :=
  fun c => powerWithin_sound hframed h c.tokens.length c

theorem foldWithin_sound {level : Level} {operand : Production} (hframed : operand.Framed)
    (h : Sound (.operand level) operand) (size : Nat) (left : Expr) (c : Cursor)
    (hmissing : (foldWithin limit level operand size left c).1.hasMissing = false)
    (hunclosed : (foldWithin limit level operand size left c).2.unclosed = c.unclosed) :
    left.hasMissing = false ∧ ∃ used,
      c.tokens = used ++ (foldWithin limit level operand size left c).2.tokens ∧
        Derives (.links level) used := by
  induction size generalizing left c with
  | zero => exact ⟨hmissing, [], rfl, .noLink level⟩
  | succ size ih =>
    rw [foldWithin_succ] at hmissing hunclosed ⊢
    rcases c.takeFold_ends_or_links limit level with ⟨_, _, ht⟩ | ⟨op, hpeek, ht⟩
    · simp only [ht] at hmissing hunclosed ⊢
      exact ⟨hmissing, [], rfl, .noLink level⟩
    · simp only [ht] at hmissing hunclosed ⊢
      obtain ⟨hlevel, hhead⟩ := Cursor.peekOperator?_eq_some hpeek
      have hlink := (c.reaches_advance.trans (Cursor.reaches_descend _)).trans (hframed.reaches _)
      have heq := unclosed_eq_of_reaches hlink (foldWithin_reaches limit level hframed _ _ _)
        hunclosed
      obtain ⟨hjoined, rest, hrest, hderives⟩ := ih _ _ hmissing heq.2
      simp only [Expr.hasMissing, Bool.or_eq_false_iff] at hjoined
      obtain ⟨used, hused, hoperand⟩ := h c.advance.descend hjoined.2 heq.1
      refine ⟨hjoined.1, .operator op :: (used ++ rest), ?_, .link hlevel hoperand hderives⟩
      rw [List.cons_append, List.append_assoc, ← hrest, ← hused]
      exact hhead

theorem fold_sound {level : Level} {operand : Production} (hframed : operand.Framed)
    (h : Sound (.operand level) operand) (first : Expr) (c : Cursor)
    (hmissing : (fold limit level operand first c).1.hasMissing = false)
    (hunclosed : (fold limit level operand first c).2.unclosed = c.unclosed) :
    first.hasMissing = false ∧ ∃ used,
      c.tokens = used ++ (fold limit level operand first c).2.tokens ∧
        Derives (.links level) used :=
  foldWithin_sound hframed h c.tokens.length first c hmissing hunclosed

theorem termOf_sound (hframed : factor.Framed) (h : Sound .factor factor) :
    Sound .term (termOf limit factor) := by
  have hpower := powerOf_framed limit hframed
  have hoperand : Sound (.operand .product) (powerOf limit factor) := powerOf_sound hframed h
  intro c hmissing hunclosed
  rw [termOf_eq] at hmissing hunclosed ⊢
  have heq := unclosed_eq_of_reaches (hpower.reaches c)
    ((fold_framed limit .product hpower _).reaches _) hunclosed
  obtain ⟨hfirst, rest, hrest, hlinks⟩ := fold_sound hpower hoperand _ _ hmissing heq.2
  obtain ⟨used, hused, hderives⟩ := hoperand c hfirst heq.1
  exact ⟨used ++ rest, by rw [List.append_assoc, ← hrest, ← hused], .term hderives hlinks⟩

theorem tokens_of_peekSign? {c : Cursor} {sign : Sign} (h : peekSign? c = some sign) :
    c.tokens = .operator sign.operator :: c.tokens.tail := by
  obtain ⟨op, hpeek, hsign⟩ := Option.bind_eq_some_iff.mp h
  rw [Operator.operator_of_sign? hsign]
  exact (Cursor.peekOperator?_eq_some hpeek).2

/-- The first term of an expression, with its sign, goes on to an expression by any links. -/
theorem leadingTerm_sound (hframed : factor.Framed) (h : Sound .factor factor) (c : Cursor)
    (hmissing : (leadingTerm limit factor c).1.hasMissing = false)
    (hunclosed : (leadingTerm limit factor c).2.unclosed = c.unclosed) :
    ∃ used, c.tokens = used ++ (leadingTerm limit factor c).2.tokens ∧
      ∀ rest, Derives (.links .sum) rest → Derives .expression (used ++ rest) := by
  have hterm : Sound .term (termOf limit factor) := termOf_sound hframed h
  unfold leadingTerm at hmissing hunclosed ⊢
  cases hsign : peekSign? c with
  | some sign =>
    simp only [hsign] at hmissing hunclosed ⊢
    obtain ⟨used, hused, hderives⟩ := hterm c.advance hmissing hunclosed
    refine ⟨.operator sign.operator :: used, ?_, fun rest => .signedExpression sign hderives⟩
    rw [List.cons_append, ← hused]
    exact tokens_of_peekSign? hsign
  | none =>
    simp only [hsign] at hmissing hunclosed ⊢
    obtain ⟨used, hused, hderives⟩ := hterm c hmissing hunclosed
    exact ⟨used, hused, fun rest => .expression hderives⟩

theorem expressionOf_sound (hframed : factor.Framed) (h : Sound .factor factor) :
    Sound .expression (expressionOf limit factor) := by
  have hterm := termOf_framed limit hframed
  have hoperand : Sound (.operand .sum) (termOf limit factor) := termOf_sound hframed h
  intro c hmissing hunclosed
  rw [expressionOf_eq] at hmissing hunclosed ⊢
  have heq := unclosed_eq_of_reaches ((leadingTerm_framed limit hframed).reaches c)
    ((fold_framed limit .sum hterm _).reaches _) hunclosed
  obtain ⟨hfirst, rest, hrest, hlinks⟩ := fold_sound hterm hoperand _ _ hmissing heq.2
  obtain ⟨used, hused, hderives⟩ := leadingTerm_sound hframed h c hfirst heq.1
  exact ⟨used ++ rest, by rw [List.append_assoc, ← hrest, ← hused], hderives rest hlinks⟩

/-- A closing token that is not counted as missing stands there. -/
theorem tokens_of_close {closing : Token} {c : Cursor}
    (h : (close closing c).unclosed = c.unclosed) :
    c.tokens = closing :: (close closing c).tokens := by
  unfold close at h ⊢
  split
  · rename_i hhead
    exact List.eq_cons_of_mem_head? hhead
  · rename_i hhead
    rw [if_neg hhead] at h
    exact absurd h (Nat.succ_ne_self _)

theorem Sound.closed {group : Production} (hframed : group.Framed) (h : Sound .expression group)
    {closing : Token} {c : Cursor} (hmissing : (group c).1.hasMissing = false)
    (hunclosed : (close closing (group c).2).unclosed = c.unclosed) :
    ∃ inner, c.tokens = inner ++ closing :: (close closing (group c).2).tokens ∧
      Derives .expression inner := by
  have heq := unclosed_eq_of_reaches (hframed.reaches c) (reaches_close _ _) hunclosed
  obtain ⟨inner, hinner, hderives⟩ := h c hmissing heq.1
  exact ⟨inner, by rw [hinner, ← tokens_of_close heq.2], hderives⟩

theorem factorWithin_sound (size : Nat) : Sound .factor (factorWithin limit size) := by
  induction size with
  | zero =>
    intro c hmissing
    cases hmissing
  | succ size ih =>
    have hframed := factorWithin_framed limit size
    have hgroupFramed := (expressionOf_framed limit hframed).nested limit
    have hgroup : Sound .expression ((expressionOf limit (factorWithin limit size)).nested limit) :=
      (expressionOf_sound hframed ih).nested
    have hpower : Sound .power ((powerOf limit (factorWithin limit size)).nested limit) :=
      (powerOf_sound hframed ih).nested
    have hcall : Sound .factor ((factorWithin limit size).nested limit) := ih.nested
    intro c hmissing hunclosed
    unfold factorWithin at hmissing hunclosed ⊢
    split at hmissing
    · rename_i op rest ht
      split at hmissing
      · rename_i sign hsign
        simp only [ht, hsign] at hunclosed ⊢
        obtain ⟨used, hused, hderives⟩ := hpower c.advance hmissing hunclosed
        obtain rfl := Operator.operator_of_sign? hsign
        refine ⟨.operator sign.operator :: used, ?_, .signedPower sign hderives⟩
        rw [List.cons_append, ← hused, Cursor.advance, ht]
        rfl
      · cases hmissing
    · rename_i value rest ht
      simp only [ht]
      exact ⟨[.number value], by simp [Cursor.note, Cursor.advance, ht], .number value⟩
    · rename_i v rest ht
      simp only [ht]
      exact ⟨[.letter v], by simp [Cursor.note, Cursor.advance, ht], .letter v⟩
    · rename_i rest ht
      simp only [ht] at hunclosed ⊢
      obtain ⟨inner, hinner, hderives⟩ := hgroup.closed hgroupFramed hmissing hunclosed
      refine ⟨.openParen :: (inner ++ [.closeParen]), ?_, .paren hderives⟩
      rw [List.cons_append, List.append_assoc, List.singleton_append, ← hinner]
      simp [Cursor.note, Cursor.advance, ht]
    · rename_i f rest ht
      simp only [ht] at hunclosed ⊢
      obtain ⟨used, hused, hderives⟩ := hcall _ hmissing hunclosed
      refine ⟨.function f :: used, ?_, .call f hderives⟩
      rw [List.cons_append, ← hused]
      simp [Cursor.note, Cursor.advance, ht]
    · rename_i rest ht
      simp only [ht] at hunclosed ⊢
      obtain ⟨inner, hinner, hderives⟩ := hgroup.closed hgroupFramed hmissing hunclosed
      refine ⟨.bar :: (inner ++ [.bar]), ?_, .bar hderives⟩
      rw [List.cons_append, List.append_assoc, List.singleton_append, ← hinner]
      simp [Cursor.note, Cursor.advance, ht]
    · cases hmissing

theorem expression_sound (limit : Option Nat) : Sound .expression (expression limit) := by
  intro c hmissing hunclosed
  exact expressionOf_sound (factorWithin_framed _ _) (factorWithin_sound _) c hmissing hunclosed

end Formula.Chained
