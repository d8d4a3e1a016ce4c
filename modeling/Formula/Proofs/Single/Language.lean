import Formula.Proofs.Phrase.Rendered
import Formula.Proofs.Single.Rereading

/-!
# The language of single operators

`Derives` is the grammar of single operators without a place for missing operands. Every group has
its own closing token, and no sum has an operation on its left. The reader of single operators reads
every word of this language as the expression of its derivation.
-/

set_option autoImplicit false

namespace Formula.Single

/-- The words of a level, with their expressions. Those without a level are factors. An operand
alone is a word of the level above its own. -/
inductive Derives : Option Level → List Token → Expr → Prop where
  | number (value : Float) : Derives none [.number value] (.number value)
  | letter (v : Letter) : Derives none [.letter v] (.letter v)
  | group (b : Bracket) {inner : List Token} {e : Expr} (hinner : Derives (some .sum) inner e) :
      Derives none (b.opening :: (inner ++ [b.closing])) (b.wrap e)
  | call (f : Elementary) {argument : List Token} {e : Expr}
      (hargument : Derives none argument e) : Derives none (.function f :: argument) (.call f e)
  | alone (level : Level) {operand : List Token} {e : Expr}
      (hoperand : Derives level.operand operand e) : Derives (some level) operand e
  | joined {level : Level} {op : Operator} (hop : op.level = level) {left right : List Token}
      {l r : Expr} (hleft : Derives level.operand left l) (hright : Derives level.operand right r)
      (hsum : level = .sum → l.isOperation = false) :
      Derives (some level) (left ++ .operator op :: right) (.binary op l r)
  | signed (sign : Sign) {operand : List Token} {e : Expr}
      (hoperand : Derives (some .product) operand e) :
      Derives (some .sum) (.operator sign.operator :: operand) (.signed sign e)

/-- The phrase divides the tokens as a derivation of the expression does. -/
structure Divides {r : Option Level} (p : Phrase r) (tokens : List Token) (e : Expr) : Prop where
  tokens : p.tokens = tokens
  expr : p.expr = e
  closed : p.Closed Phrase.OwnCloser
  decided : p.Decided
  hasMissing : e.hasMissing = false

theorem isMissing_eq_false {e : Expr} (h : e.hasMissing = false) : e.isMissing = false := by
  cases e <;> simp_all [Expr.hasMissing, Expr.isMissing]

theorem Derives.exists_phrase {r : Option Level} {tokens : List Token} {e : Expr}
    (h : Derives r tokens e) : ∃ p : Phrase r, Divides p tokens e := by
  induction h with
  | number value => exact ⟨.number value, rfl, rfl, trivial, trivial, rfl⟩
  | letter v => exact ⟨.letter v, rfl, rfl, trivial, trivial, rfl⟩
  | group b _ ih =>
    obtain ⟨inner, htokens, hexpr, hclosed, hdecided, hmissing⟩ := ih
    refine ⟨.group b inner (some b.closing), ?_, ?_, ⟨⟨_, rfl, rfl⟩, hclosed⟩, hdecided, ?_⟩
    · simp [Phrase.tokens, htokens]
    · simp [Phrase.expr, hexpr]
    · cases b <;> exact hmissing
  | call f _ ih =>
    obtain ⟨argument, htokens, hexpr, hclosed, hdecided, hmissing⟩ := ih
    refine ⟨.call f argument, ?_, ?_, hclosed, hdecided, hmissing⟩
    · simp [Phrase.tokens, htokens]
    · simp [Phrase.expr, hexpr]
  | alone level _ ih =>
    obtain ⟨operand, htokens, hexpr, hclosed, hdecided, hmissing⟩ := ih
    exact ⟨.alone level operand, htokens, hexpr, hclosed, hdecided, hmissing⟩
  | @joined level op hop _ _ _ _ _ _ hsum ihl ihr =>
    obtain ⟨left, htokens, rfl, hclosed, hdecided, hmissing⟩ := ihl
    obtain ⟨right, htokens', rfl, hclosed', hdecided', hmissing'⟩ := ihr
    have hleft (hlevel : level = .sum) :
        left.expr.isMissing = false ∧ left.expr.isOperation = false :=
      ⟨isMissing_eq_false hmissing, hsum hlevel⟩
    refine ⟨.joined level op hop left right, ?_, rfl, ⟨hclosed, hclosed'⟩,
      ⟨hleft, hdecided, hdecided'⟩, ?_⟩
    · simp [Phrase.tokens, htokens, htokens']
    · simp [Expr.hasMissing, hmissing, hmissing']
  | signed sign _ ih =>
    obtain ⟨operand, htokens, hexpr, hclosed, hdecided, hmissing⟩ := ih
    -- Nothing is written before the sign, which is a phrase of its own.
    refine ⟨.signed sign (.ofFactor _ .missing) operand, ?_, ?_, ⟨rfl, hclosed⟩, ?_, hmissing⟩
    · simp [Phrase.tokens, htokens]
    · simp [Phrase.expr, hexpr]
    · exact ⟨.inl rfl, trivial, hdecided⟩

theorem Derives.run_none_readsAs {tokens : List Token} {e : Expr}
    (h : Derives (some .sum) tokens e) :
    ReadsAs { tokens } e [] (Grammar.single.run none tokens) := by
  obtain ⟨p, rfl, rfl, hclosed, hdecided, hmissing⟩ := h.exists_phrase
  exact production_readsAs (hclosed.mono Phrase.anyCloser_of_ownCloser) hdecided
    (List.append_nil _).symm (Nat.le_refl _) (hasRoom_none _) (stopsAt_nil _) (.inl hmissing)

/-- The language is not ambiguous. -/
theorem Derives.unique {tokens : List Token} {e e' : Expr} (h : Derives (some .sum) tokens e)
    (h' : Derives (some .sum) tokens e') : e = e' :=
  h.run_none_readsAs.expr.symm.trans h'.run_none_readsAs.expr

/-- Words of the language that are not too deep are read whole, as the expression of their
derivation and with nothing to report. -/
theorem read_eq_of_derives {tokens : List Token} {e : Expr} (h : Derives (some .sum) tokens e)
    (hdeep : (Grammar.single.read tokens).tooDeep = false) :
    Grammar.single.read tokens =
      { expr := e, unconsumed := [], unclosed := 0, tooDeep := false, displaced := [] } :=
  Grammar.read_eq_of_readsAs h.run_none_readsAs hdeep

theorem read_eq_of_derives_nested_bars :
    let inner : List Token := [.letter .y, .operator .multiply, .bar, .letter .z, .bar]
    let tokens : List Token := .operator .subtract :: .function .sine :: .letter .x ::
      .operator .power :: .bar :: (inner ++ [.bar])
    let e : Expr := .signed .minus (.binary .power (.call .sine (.letter .x))
      (.absolute (.binary .multiply (.letter .y) (.absolute (.letter .z)))))
    Derives (some .sum) tokens e ∧ (Grammar.single.read tokens).tooDeep = false ∧
      Grammar.single.read tokens =
        { expr := e, unconsumed := [], unclosed := 0, tooDeep := false, displaced := [] } := by
  intro inner tokens e
  have hmultiply : Operator.multiply.level = .product := rfl
  have hpower : Operator.power.level = .power := rfl
  have hz : Derives (some .sum) [.letter .z] (.letter .z) :=
    .alone .sum (.alone .product (.alone .power (.letter .z)))
  have hinner : Derives (some .sum) inner
      (.binary .multiply (.letter .y) (.absolute (.letter .z))) :=
    .alone .sum (.joined hmultiply (.alone .power (.letter .y)) (.alone .power (.group .bar hz))
      (by decide))
  have hderives : Derives (some .sum) tokens e :=
    .signed .minus (.alone .product (.joined hpower (.call .sine (.letter .x)) (.group .bar hinner)
      (by decide)))
  have hdeep : (Grammar.single.read tokens).tooDeep = false := rfl
  exact ⟨hderives, hdeep, read_eq_of_derives hderives hdeep⟩

end Formula.Single
