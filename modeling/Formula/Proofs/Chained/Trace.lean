import Formula.Proofs.Chained.Language
import Formula.Proofs.Phrase.Basic

/-!
# What chains are read from

Whatever the tokens are, those that the reader of chains takes stand for its expression, with
nothing between its parts. A group that is not closed ends where the reader stops, and is counted.
-/

set_option autoImplicit false

namespace Formula.Chained

/-- The tokens stand for the expression, and so many of their groups are left open. A missing
operand has no tokens. -/
inductive Spans : Expr → List Token → Nat → Prop where
  | missing : Spans .missing [] 0
  | number (value : Float) : Spans (.number value) [.number value] 0
  | letter (v : Letter) : Spans (.letter v) [.letter v] 0
  | binary (op : Operator) {left right : Expr} {tokens tokens' : List Token} {opened opened' : Nat}
      (hleft : Spans left tokens opened) (hright : Spans right tokens' opened') :
      Spans (.binary op left right) (tokens ++ .operator op :: tokens') (opened + opened')
  | signed (sign : Sign) {operand : Expr} {tokens : List Token} {opened : Nat}
      (hoperand : Spans operand tokens opened) :
      Spans (.signed sign operand) (.operator sign.operator :: tokens) opened
  | call (f : Elementary) {argument : Expr} {tokens : List Token} {opened : Nat}
      (hargument : Spans argument tokens opened) :
      Spans (.call f argument) (.function f :: tokens) opened
  | closed (b : Bracket) {inner : Expr} {tokens : List Token} {opened : Nat}
      (hinner : Spans inner tokens opened) :
      Spans (b.wrap inner) (b.opening :: (tokens ++ [b.closing])) opened
  | unclosed (b : Bracket) {inner : Expr} {tokens : List Token} {opened : Nat}
      (hinner : Spans inner tokens opened) :
      Spans (b.wrap inner) (b.opening :: tokens) (opened + 1)

/-- The expression of the result stands where the cursor is, up to the cursor of the result. -/
def Traces (c : Cursor) (result : Expr × Cursor) : Prop :=
  ∃ used opened, c.tokens = used ++ result.2.tokens ∧ Spans result.1 used opened ∧
    result.2.unclosed = c.unclosed + opened

def Traced (p : Production) : Prop :=
  ∀ c, Traces c (p c)

variable {limit : Option Nat} {p factor operand : Production} {c c' : Cursor} {e : Expr}

theorem traces_missing (h : c'.tokens = c.tokens) (hunclosed : c'.unclosed = c.unclosed) :
    Traces c (.missing, c') :=
  ⟨[], 0, h.symm, .missing, hunclosed⟩

theorem Traces.joined {op : Operator} {right : Expr × Cursor} (hleft : Traces c (e, c'))
    (hhead : c'.tokens = .operator op :: c'.tokens.tail) (hright : Traces c'.advance right) :
    Traces c (.binary op e right.1, right.2) := by
  obtain ⟨used, opened, htokens, hspans, hunclosed⟩ := hleft
  obtain ⟨used', opened', htokens', hspans', hunclosed'⟩ := hright
  refine ⟨used ++ .operator op :: used', opened + opened', ?_, .binary op hspans hspans', ?_⟩
  · rw [List.append_assoc, List.cons_append, ← htokens', htokens]
    exact congrArg (used ++ ·) hhead
  · rw [hunclosed', ← Nat.add_assoc, ← hunclosed]
    rfl

/-- A sign or a function stands before what it is applied to. -/
theorem Traces.cons {token : Token} {rest : List Token} {result : Expr × Cursor}
    (h : Traces c.advance result) (hhead : c.tokens = token :: rest)
    (hspans : ∀ {used opened}, Spans result.1 used opened → Spans e (token :: used) opened) :
    Traces c (e, result.2) := by
  obtain ⟨used, opened, htokens, hresult, hunclosed⟩ := h
  rw [Cursor.advance_tokens, hhead, List.tail_cons] at htokens
  refine ⟨token :: used, opened, ?_, hspans hresult, hunclosed⟩
  rw [hhead, htokens, List.cons_append]

/-- Only its own closing token closes a group. -/
theorem Traces.group {b : Bracket} {rest : List Token} {result : Expr × Cursor}
    (h : Traces c.advance result) (hhead : c.tokens = b.opening :: rest) :
    Traces c (b.wrap result.1, close b.closing result.2) := by
  obtain ⟨used, opened, htokens, hspans, hunclosed⟩ := h
  rw [Cursor.advance_tokens, hhead, List.tail_cons] at htokens
  unfold close
  split
  · rename_i hclosing
    refine ⟨_, opened, ?_, .closed b hspans, hunclosed⟩
    rw [hhead, htokens, List.cons_append, List.append_assoc, List.singleton_append]
    exact congrArg (b.opening :: used ++ ·) (List.eq_cons_of_mem_head? hclosing)
  · refine ⟨_, opened + 1, ?_, .unclosed b hspans, congrArg (· + 1) hunclosed⟩
    rw [hhead, htokens, List.cons_append]

theorem Traced.nested (h : Traced p) : Traced (p.nested limit) := by
  intro c
  unfold Production.nested
  split
  · exact traces_missing c.reportDepth_tokens c.reportDepth_unclosed
  · exact h c.descend

theorem powerWithin_traced (h : Traced factor) (size : Nat) :
    Traced (powerWithin limit factor size) := by
  induction size with
  | zero => exact h
  | succ size ih =>
    intro c
    rw [powerWithin_succ]
    rcases (factor c).2.takeFold_ends_or_links limit .power with ⟨_, _, ht⟩ | ⟨op, hpeek, ht⟩
    · simp only [ht]
      exact h c
    · simp only [ht]
      exact (h c).joined (Cursor.peekOperator?_eq_some hpeek).2 (ih (factor c).2.advance.descend)

theorem powerOf_traced (h : Traced factor) : Traced (powerOf limit factor) :=
  fun c => powerWithin_traced h c.tokens.length c

/-- Every link of a chain goes on with what has been read since the start of the chain. -/
theorem foldWithin_traces {level : Level} (h : Traced operand) (size : Nat)
    (hleft : Traces c (e, c')) : Traces c (foldWithin limit level operand size e c') := by
  induction size generalizing e c' with
  | zero => exact hleft
  | succ size ih =>
    rw [foldWithin_succ]
    rcases c'.takeFold_ends_or_links limit level with ⟨_, _, ht⟩ | ⟨op, hpeek, ht⟩
    · simp only [ht]
      exact hleft
    · simp only [ht]
      exact ih (hleft.joined (Cursor.peekOperator?_eq_some hpeek).2 (h c'.advance.descend))

theorem fold_traces {level : Level} (h : Traced operand) (hfirst : Traces c (e, c')) :
    Traces c (fold limit level operand e c') :=
  foldWithin_traces h c'.tokens.length hfirst

theorem termOf_traced (h : Traced factor) : Traced (termOf limit factor) := by
  intro c
  rw [termOf_eq]
  exact fold_traces (powerOf_traced h) (powerOf_traced h c)

theorem leadingTerm_traced (h : Traced factor) : Traced (leadingTerm limit factor) := by
  have hterm : Traced (termOf limit factor) := termOf_traced h
  intro c
  unfold leadingTerm
  cases hsign : peekSign? c with
  | some sign => exact (hterm c.advance).cons (tokens_of_peekSign? hsign) (.signed sign)
  | none => exact hterm c

theorem expressionOf_traced (h : Traced factor) : Traced (expressionOf limit factor) := by
  intro c
  rw [expressionOf_eq]
  exact fold_traces (termOf_traced h) (leadingTerm_traced h c)

theorem factorWithin_traced (limit : Option Nat) (size : Nat) :
    Traced (factorWithin limit size) := by
  induction size with
  | zero => exact fun c => traces_missing rfl rfl
  | succ size ih =>
    have hgroup : Traced ((expressionOf limit (factorWithin limit size)).nested limit) :=
      (expressionOf_traced ih).nested
    have hpower : Traced ((powerOf limit (factorWithin limit size)).nested limit) :=
      (powerOf_traced ih).nested
    have hcall : Traced ((factorWithin limit size).nested limit) := ih.nested
    intro c
    unfold factorWithin
    split
    · rename_i op rest ht
      split
      · rename_i sign hsign
        obtain rfl := Operator.operator_of_sign? hsign
        exact (hpower c.advance).cons ht (.signed sign)
      · exact traces_missing rfl rfl
    · rename_i value rest ht
      exact ⟨[.number value], 0, by simp [ht], .number value, rfl⟩
    · rename_i v rest ht
      exact ⟨[.letter v], 0, by simp [ht], .letter v, rfl⟩
    · rename_i rest ht
      exact Traces.group (b := .paren) (hgroup (c.advance.note (.factor .openParen))) ht
    · rename_i f rest ht
      exact Traces.cons (hcall (c.advance.note (.factor (.function f)))) ht (.call f)
    · rename_i rest ht
      exact Traces.group (b := .bar) (hgroup (c.advance.note (.factor .bar))) ht
    · exact traces_missing rfl rfl

/-- The tokens that a reader of chains takes stand for its expression, and the groups of them that
are left open are those that it counts. -/
theorem run_spans (limit : Option Nat) (tokens : List Token) :
    ∃ used, tokens = used ++ (Grammar.chained.run limit tokens).2.tokens ∧
      Spans (Grammar.chained.run limit tokens).1 used
        (Grammar.chained.run limit tokens).2.unclosed := by
  have htraced : Traced (expressionOf limit (factorWithin limit tokens.length)) :=
    expressionOf_traced (factorWithin_traced limit _)
  obtain ⟨used, opened, htokens, hspans, hunclosed⟩ := htraced { tokens }
  obtain rfl := hunclosed.trans (Nat.zero_add opened)
  exact ⟨used, htokens, hspans⟩

end Formula.Chained
