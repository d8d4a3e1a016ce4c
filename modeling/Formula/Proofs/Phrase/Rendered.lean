import Formula.Proofs.Phrase.Basic

/-!
# The phrases of expressions

Every expression has a phrase whose tokens are its infix form. The parentheses of the infix
form are exactly the groups that the phrase needs for its operators to be of one level each.
-/

set_option autoImplicit false

namespace Formula

/-- Whether an operation of the level can stand, without parentheses, where a phrase of the
other level is read. -/
def Level.fits (level : Level) : Option Level → Bool
  | none => false
  | some outer => outer.strength ≤ level.strength

namespace Phrase

def inParens (p : Phrase (some .sum)) : Phrase none :=
  .group .paren p (some .closeParen)

def ofFactor : (r : Option Level) → Phrase none → Phrase r
  | none, p => p
  | some .power, p => .alone .power p
  | some .product, p => .alone .product (.alone .power p)
  | some .sum, p => .alone .sum (.alone .product (.alone .power p))

/-- An operation where a phrase of any level is read, in parentheses if it does not fit. -/
def place : (level : Level) → (r : Option Level) → Phrase (some level) → Phrase r
  | .power, some .power, p => p
  | .power, some .product, p => .alone .product p
  | .power, some .sum, p => .alone .sum (.alone .product p)
  | .product, some .product, p => p
  | .product, some .sum, p => .alone .sum p
  | .sum, some .sum, p => p
  | .sum, r, p => ofFactor r (inParens p)
  | .product, r, p => ofFactor r (inParens (.alone .sum p))
  | .power, r, p => ofFactor r (inParens (.alone .sum (.alone .product p)))

variable {r : Option Level}

@[simp] theorem tokens_ofFactor (p : Phrase none) : (ofFactor r p).tokens = p.tokens := by
  rcases r with _ | level
  · rfl
  · cases level <;> rfl

@[simp] theorem expr_ofFactor (p : Phrase none) : (ofFactor r p).expr = p.expr := by
  rcases r with _ | level
  · rfl
  · cases level <;> rfl

@[simp] theorem displaced_ofFactor (p : Phrase none) : (ofFactor r p).displaced = p.displaced := by
  rcases r with _ | level
  · rfl
  · cases level <;> rfl

@[simp] theorem nesting_ofFactor (p : Phrase none) : (ofFactor r p).nesting = p.nesting := by
  rcases r with _ | level
  · rfl
  · cases level <;> rfl

@[simp] theorem closed_ofFactor (closes : Bracket → Token → Prop) (p : Phrase none) :
    (ofFactor r p).Closed closes ↔ p.Closed closes := by
  rcases r with _ | level
  · rfl
  · cases level <;> exact Iff.rfl

@[simp] theorem decided_ofFactor (p : Phrase none) : (ofFactor r p).Decided ↔ p.Decided := by
  rcases r with _ | level
  · rfl
  · cases level <;> exact Iff.rfl

theorem tokens_place (level : Level) (p : Phrase (some level)) :
    (place level r p).tokens = Expr.parensIf (!level.fits r) p.tokens := by
  rcases r with _ | outer
  · cases level <;> rfl
  · cases level <;> cases outer <;> rfl

@[simp] theorem expr_place (level : Level) (p : Phrase (some level)) :
    (place level r p).expr = p.expr := by
  rcases r with _ | outer
  · cases level <;> rfl
  · cases level <;> cases outer <;> rfl

theorem nesting_place (level : Level) (p : Phrase (some level)) :
    (place level r p).nesting = p.nesting + if !level.fits r then 1 else 0 := by
  rcases r with _ | outer
  · cases level <;> rfl
  · cases level <;> cases outer <;> rfl

theorem closed_place (level : Level) (p : Phrase (some level)) (h : p.Closed OwnCloser) :
    (place level r p).Closed OwnCloser := by
  have hparens (q : Phrase (some .sum)) (hq : q.Closed OwnCloser) : (inParens q).Closed OwnCloser :=
    ⟨⟨_, rfl, rfl⟩, hq⟩
  rcases r with _ | outer
  · cases level <;> exact hparens _ h
  · cases level <;> cases outer <;> first | exact h | exact hparens _ h

@[simp] theorem decided_place (level : Level) (p : Phrase (some level)) :
    (place level r p).Decided ↔ p.Decided := by
  rcases r with _ | outer
  · cases level <;> rfl
  · cases level <;> cases outer <;> rfl

end Phrase

namespace Expr

def needsParens (r : Option Level) : Expr → Bool
  | binary op .. => !op.level.fits r
  | signed .. => !Level.sum.fits r
  | _ => false

/-- The phrase of the infix form, where a phrase of any level is read. -/
def phrase : Expr → (r : Option Level) → Phrase r
  | missing, r => .ofFactor r .missing
  | number value, r => .ofFactor r (.number value)
  | letter v, r => .ofFactor r (.letter v)
  | binary op left right, r =>
    .place op.level r (.joined op.level op rfl (left.phrase op.level.operand)
      (right.phrase op.level.operand))
  | signed sign operand, r =>
    .place .sum r (.signed sign (.ofFactor _ .missing) (operand.phrase (some .product)))
  | absolute operand, r => .ofFactor r (.group .bar (operand.phrase (some .sum)) (some .bar))
  | call f argument, r => .ofFactor r (.call f (.inParens (argument.phrase (some .sum))))

theorem needsParens_operand (op : Operator) (e : Expr) :
    e.needsParens op.level.operand = e.needsParensUnder op := by
  cases e with
  | binary inner left right =>
    simp only [needsParens, needsParensUnder]
    cases op.level <;> cases inner.level <;> rfl
  | signed sign operand =>
    simp only [needsParens, needsParensUnder, isSigned]
    cases op.level <;> rfl
  | _ => rfl

theorem needsParens_product (e : Expr) :
    e.needsParens (some .product) = e.needsParensAfterSign := by
  cases e with
  | binary op left right =>
    simp only [needsParens, needsParensAfterSign, isSum, isSigned]
    cases op.level <;> rfl
  | _ => rfl

@[simp] theorem needsParens_sum (e : Expr) : e.needsParens (some .sum) = false := by
  cases e with
  | binary op left right =>
    simp only [needsParens]
    cases op.level <;> rfl
  | _ => rfl

theorem tokens_phrase (e : Expr) (r : Option Level) :
    (e.phrase r).tokens = parensIf (e.needsParens r) e.infixTokens := by
  induction e generalizing r with
  | missing | number | letter => simp [phrase, needsParens, parensIf, Phrase.tokens, infixTokens]
  | binary op left right ihl ihr =>
    simp only [phrase, Phrase.tokens_place, Phrase.tokens, ihl, ihr, needsParens_operand]
    rfl
  | signed sign operand ih =>
    simp only [phrase, Phrase.tokens_place, Phrase.tokens, Phrase.tokens_ofFactor, ih,
      needsParens_product]
    rfl
  | absolute operand ih =>
    simp only [phrase, Phrase.tokens_ofFactor, Phrase.tokens, ih, needsParens_sum]
    rfl
  | call f argument ih =>
    simp only [phrase, Phrase.tokens_ofFactor, Phrase.inParens, Phrase.tokens, ih,
      needsParens_sum]
    rfl

@[simp] theorem expr_phrase (e : Expr) (r : Option Level) : (e.phrase r).expr = e := by
  induction e generalizing r with
  | missing | number | letter => simp [phrase, Phrase.expr]
  | binary op left right ihl ihr => simp [phrase, Phrase.expr, ihl, ihr]
  | signed sign operand ih => simp [phrase, Phrase.expr, ih]
  | absolute operand ih => simp [phrase, Phrase.expr, Bracket.wrap, ih]
  | call f argument ih => simp [phrase, Phrase.inParens, Phrase.expr, Bracket.wrap, ih]

theorem closed_phrase (e : Expr) (r : Option Level) :
    (e.phrase r).Closed Phrase.OwnCloser := by
  induction e generalizing r with
  | missing | number | letter => simp [phrase, Phrase.Closed]
  | binary op left right ihl ihr => exact Phrase.closed_place _ _ ⟨ihl _, ihr _⟩
  | signed sign operand ih => exact Phrase.closed_place _ _ ⟨rfl, ih _⟩
  | absolute operand ih =>
    exact (Phrase.closed_ofFactor _ _).mpr ⟨⟨_, rfl, rfl⟩, ih _⟩
  | call f argument ih =>
    exact (Phrase.closed_ofFactor _ _).mpr ⟨⟨_, rfl, rfl⟩, ih _⟩

theorem decided_phrase {e : Expr} (h : e.SumsDecided) (r : Option Level) :
    (e.phrase r).Decided := by
  induction e generalizing r with
  | missing | number | letter => simp [phrase, Phrase.Decided]
  | binary op left right ihl ihr =>
    simpa [phrase, Phrase.Decided] using ⟨h.1, ihl h.2.1 _, ihr h.2.2 _⟩
  | signed sign operand ih =>
    simpa [phrase, Phrase.Decided, Phrase.expr, isMissing] using ih h _
  | absolute operand ih => simpa [phrase, Phrase.Decided] using ih h _
  | call f argument ih => simpa [phrase, Phrase.inParens, Phrase.Decided] using ih h _

/-- An operation and the parentheses around it nest at most two levels. -/
theorem nesting_phrase_le (e : Expr) (r : Option Level) :
    (e.phrase r).nesting ≤ 2 * e.operationHeight + if e.needsParens r then 1 else 0 := by
  induction e generalizing r with
  | missing | number | letter => simp [phrase, Phrase.nesting]
  | binary op left right ihl ihr =>
    have hl := ihl op.level.operand
    have hr := ihr op.level.operand
    have hmax : max (left.phrase op.level.operand).nesting
        ((right.phrase op.level.operand).nesting + 1) ≤
        2 * (max left.operationHeight right.operationHeight + 1) := by
      split at hl <;> split at hr <;> omega
    simp only [phrase, Phrase.nesting_place, Phrase.nesting]
    exact Nat.add_le_add_right hmax _
  | signed sign operand ih =>
    have ho := ih (some .product)
    have hmax : max 0 (operand.phrase (some .product)).nesting ≤
        2 * (operand.operationHeight + 1) := by
      split at ho <;> omega
    simp only [phrase, Phrase.nesting_place, Phrase.nesting, Phrase.nesting_ofFactor]
    exact Nat.add_le_add_right hmax _
  | absolute operand ih =>
    have ho : (operand.phrase (some .sum)).nesting ≤ 2 * operand.operationHeight := by
      simpa using ih (some .sum)
    simp only [phrase, Phrase.nesting_ofFactor, Phrase.nesting, operationHeight]
    omega
  | call f argument ih =>
    have ho : (argument.phrase (some .sum)).nesting ≤ 2 * argument.operationHeight := by
      simpa using ih (some .sum)
    simp only [phrase, Phrase.nesting_ofFactor, Phrase.inParens, Phrase.nesting, operationHeight]
    omega

end Expr
end Formula
