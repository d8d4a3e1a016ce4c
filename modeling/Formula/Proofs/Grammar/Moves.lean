import Mathlib.Data.List.Infix
import Formula.Grammar.Reading

/-!
# The moves of a reader

Every production of both grammars is made of a few moves: it takes a token, notes a step, changes
the depth, or reports something. A relation between positions that holds across each of these moves
holds across every production.
-/

set_option autoImplicit false

namespace Formula

namespace Cursor

@[simp] theorem advance_tokens (c : Cursor) : c.advance.tokens = c.tokens.tail := rfl

@[simp] theorem note_tokens (c : Cursor) (step : Step) : (c.note step).tokens = c.tokens := rfl

@[simp] theorem descend_tokens (c : Cursor) : c.descend.tokens = c.tokens := rfl

@[simp] theorem descend_depth (c : Cursor) : c.descend.depth = c.depth + 1 := rfl

@[simp] theorem reportDepth_depth (c : Cursor) : c.reportDepth.depth = c.depth := by
  unfold reportDepth
  split <;> rfl

@[simp] theorem reportDepth_tokens (c : Cursor) : c.reportDepth.tokens = c.tokens := by
  unfold reportDepth
  split <;> rfl

@[simp] theorem reportDepth_unclosed (c : Cursor) : c.reportDepth.unclosed = c.unclosed := by
  unfold reportDepth
  split <;> rfl

@[simp] theorem reportDepth_displaced (c : Cursor) : c.reportDepth.displaced = c.displaced := by
  unfold reportDepth
  split <;> rfl

@[simp] theorem reportDepth_tooDeep (c : Cursor) : c.reportDepth.tooDeep = true := rfl

@[simp] theorem isFull_none (c : Cursor) : c.isFull none = false := rfl

/-- All that can come of asking for the next link of a chain. -/
theorem takeFold_cases (limit : Option Nat) (level : Level) (c : Cursor) :
    (c.peekOperator? level = none ∧ c.takeFold limit level = (none, c)) ∨
    (∃ op, c.peekOperator? level = some op ∧ c.isFull limit = true ∧
      c.takeFold limit level = (none, { c with tooDeep := true })) ∨
    (∃ op, c.peekOperator? level = some op ∧ c.isFull limit = false ∧
      c.takeFold limit level = (some op, c.advance.descend)) := by
  unfold takeFold
  cases hp : c.peekOperator? level with
  | none => exact .inl ⟨rfl, rfl⟩
  | some op =>
    cases hf : c.isFull limit with
    | true => exact .inr (.inl ⟨op, rfl, rfl, by simp⟩)
    | false => exact .inr (.inr ⟨op, rfl, rfl, by simp⟩)

/-- A chain ends here, perhaps with a report, or it takes its next operator. -/
theorem takeFold_ends_or_links (limit : Option Nat) (level : Level) (c : Cursor) :
    (∃ tooDeep, (c.tooDeep = true → tooDeep = true) ∧
      c.takeFold limit level = (none, { c with tooDeep })) ∨
    (∃ op, c.peekOperator? level = some op ∧
      c.takeFold limit level = (some op, c.advance.descend)) := by
  rcases c.takeFold_cases limit level with ⟨_, ht⟩ | ⟨op, _, _, ht⟩ | ⟨op, hpeek, _, ht⟩
  · exact .inl ⟨c.tooDeep, id, ht⟩
  · exact .inl ⟨true, fun _ => rfl, ht⟩
  · exact .inr ⟨op, hpeek, ht⟩

/-- Without a limit, a chain ends only where no operator of its level comes. -/
theorem takeFold_none_cases (level : Level) (c : Cursor) :
    (c.peekOperator? level = none ∧ c.takeFold none level = (none, c)) ∨
    (∃ op, c.peekOperator? level = some op ∧
      c.takeFold none level = (some op, c.advance.descend)) := by
  rcases c.takeFold_cases none level with h | ⟨_, _, hfull, _⟩ | ⟨op, hpeek, _, ht⟩
  · exact .inl h
  · cases hfull
  · exact .inr ⟨op, hpeek, ht⟩

theorem peekOperator?_eq_some {c : Cursor} {level : Level} {op : Operator}
    (h : c.peekOperator? level = some op) :
    op.level = level ∧ c.tokens = .operator op :: c.tokens.tail := by
  unfold peekOperator? at h
  split at h
  · rename_i op' rest ht
    split at h
    · rename_i hl
      obtain rfl := Option.some.inj h
      exact ⟨hl, by rw [ht]; rfl⟩
    · cases h
  · cases h

/-- A relation between positions that holds across the moves of both grammars. The limit is
reported where it is reached, and the reader goes deeper only where it is not. It comes up level by
level, or at once to where a chain began. -/
structure Moves (limit : Option Nat) (R : Cursor → Cursor → Prop) : Prop where
  refl : ∀ c, R c c
  trans : ∀ {a b c}, R a b → R b c → R a c
  advance : ∀ c, R c c.advance
  note : ∀ c step, R c (c.note step)
  descend : ∀ c, c.isFull limit = false → R c c.descend
  ascend : ∀ c, R c c.ascend
  restore : ∀ {c c'}, R c c' → R c { c' with depth := c.depth }
  tooDeep : ∀ c, c.isFull limit = true → R c { c with tooDeep := true }

namespace Moves

variable {limit : Option Nat} {R : Cursor → Cursor → Prop}

theorem reportDepth (hR : Moves limit R) {c : Cursor} (hfull : c.isFull limit = true) :
    R c c.reportDepth := by
  unfold Cursor.reportDepth
  split
  · exact hR.tooDeep c hfull
  · exact hR.trans (hR.note c .tooDeep) (hR.tooDeep _ hfull)

theorem takeFold (hR : Moves limit R) (level : Level) (c : Cursor) :
    R c (c.takeFold limit level).2 := by
  rcases c.takeFold_cases limit level with ⟨_, ht⟩ | ⟨op, _, hfull, ht⟩ | ⟨op, _, hroom, ht⟩
  · rw [ht]
    exact hR.refl c
  · rw [ht]
    exact hR.tooDeep c hfull
  · rw [ht]
    exact hR.trans (hR.advance c) (hR.descend _ hroom)

theorem start (hR : Moves limit R) (c : Cursor) (token : Token) :
    R c (c.advance.note (.factor token)) :=
  hR.trans (hR.advance c) (hR.note _ _)

end Moves

end Cursor

namespace Production

/-- The relation holds between each position and the one where the production ends. -/
def Respects (R : Cursor → Cursor → Prop) (p : Production) : Prop :=
  ∀ c, R c (p c).2

theorem Respects.nested {limit : Option Nat} {R : Cursor → Cursor → Prop} {p : Production}
    (h : p.Respects R) (hR : Cursor.Moves limit R) : (p.nested limit).Respects R := by
  intro c
  unfold Production.nested
  split
  · rename_i hfull
    exact hR.reportDepth hfull
  · rename_i hroom
    have hinner := hR.trans (hR.descend c (eq_false_of_ne_true hroom)) (h c.descend)
    exact hR.trans hinner (hR.ascend _)

end Production

open Production (Respects)

variable {limit : Option Nat} {R : Cursor → Cursor → Prop} {factor operand : Production}

namespace Single

theorem joined_eq (level : Level) (operand : Production) (c : Cursor) :
    joined level operand c = match (operand c).2.peekOperator? level with
      | none => operand c
      | some op => (.binary op (operand c).1 (operand (operand c).2.advance).1,
          (operand (operand c).2.advance).2) := rfl

theorem joined_respects (hR : Cursor.Moves limit R) (level : Level) (h : Respects R operand) :
    Respects R (joined level operand) := by
  intro c
  rw [joined_eq]
  split
  · exact h c
  · exact hR.trans (hR.trans (h c) (hR.advance _)) (h _)

theorem termOf_respects (hR : Cursor.Moves limit R) (h : Respects R factor) :
    Respects R (termOf factor) :=
  joined_respects hR .product (joined_respects hR .power h)

def signCursor (before : Expr) (op : Operator) (c : Cursor) : Cursor :=
  if before.isMissing then c.note (.sign op) else (c.note (.sign op)).displace before

theorem signedTerm_eq (factor : Production) (before : Expr) (op : Operator) (c : Cursor) :
    signedTerm factor before op c = match op.sign? with
      | some sign => (.signed sign (termOf factor (signCursor before op c)).1,
          (termOf factor (signCursor before op c)).2)
      | none => termOf factor (signCursor before op c) := rfl

theorem signedTerm_snd (factor : Production) (before : Expr) (op : Operator) (c : Cursor) :
    (signedTerm factor before op c).2 = (termOf factor (signCursor before op c)).2 := by
  rw [signedTerm_eq]
  split <;> rfl

theorem expressionOf_eq (factor : Production) (c : Cursor) :
    expressionOf factor c = match (termOf factor c).2.peekOperator? .sum with
      | none => termOf factor c
      | some op =>
        if (termOf factor c).1.isMissing || (termOf factor c).1.isOperation then
          signedTerm factor (termOf factor c).1 op (termOf factor c).2.advance
        else (.binary op (termOf factor c).1 (termOf factor (termOf factor c).2.advance).1,
          (termOf factor (termOf factor c).2.advance).2) := rfl

section

variable (hR : Cursor.Moves limit R) (hdisplace : ∀ c e, R c (c.displace e))
include hR hdisplace

theorem signedTerm_respects (h : Respects R factor) (before : Expr) (op : Operator) :
    Respects R (signedTerm factor before op) := by
  intro c
  have hsign : R c (signCursor before op c) := by
    unfold signCursor
    split
    · exact hR.note c _
    · exact hR.trans (hR.note c _) (hdisplace _ _)
  rw [signedTerm_snd]
  exact hR.trans hsign (termOf_respects hR h _)

theorem expressionOf_respects (h : Respects R factor) : Respects R (expressionOf factor) := by
  have hterm := termOf_respects hR h
  intro c
  have hfirst := hR.trans (hterm c) (hR.advance _)
  rw [expressionOf_eq]
  split
  · exact hterm c
  · split
    · exact hR.trans hfirst (signedTerm_respects hR hdisplace h _ _ _)
    · exact hR.trans hfirst (hterm _)

theorem factorWithin_respects (size : Nat) : Respects R (factorWithin limit size) := by
  induction size with
  | zero => exact hR.refl
  | succ size ih =>
    have hgroup := (expressionOf_respects hR hdisplace ih).nested hR
    have hcall := ih.nested hR
    intro c
    unfold factorWithin
    split
    · exact hR.start c _
    · exact hR.start c _
    · exact hR.trans (hR.trans (hR.start c _) (hgroup _)) (hR.advance _)
    · exact hR.trans (hR.start c _) (hcall _)
    · exact hR.trans (hR.trans (hR.start c _) (hgroup _)) (hR.advance _)
    · exact hR.refl c

end

end Single

namespace Chained

theorem foldWithin_succ (limit : Option Nat) (level : Level) (operand : Production) (size : Nat)
    (left : Expr) (c : Cursor) :
    foldWithin limit level operand (size + 1) left c = match c.takeFold limit level with
      | (none, c) => (left, c)
      | (some op, next) =>
        foldWithin limit level operand size (.binary op left (operand next).1) (operand next).2 :=
  rfl

theorem powerWithin_succ (limit : Option Nat) (factor : Production) (size : Nat) (c : Cursor) :
    powerWithin limit factor (size + 1) c = match (factor c).2.takeFold limit .power with
      | (none, c') => ((factor c).1, c')
      | (some op, next) => (.binary op (factor c).1 (powerWithin limit factor size next).1,
          { (powerWithin limit factor size next).2 with depth := (factor c).2.depth }) := rfl

theorem foldWithin_of_peekOperator? {limit : Option Nat} {level : Level} {operand : Production}
    {size : Nat} {c : Cursor} (h : c.peekOperator? level = none) (left : Expr) :
    foldWithin limit level operand size left c = (left, c) := by
  cases size with
  | zero => rfl
  | succ size => simp [foldWithin_succ, Cursor.takeFold, h]

theorem powerWithin_of_peekOperator? {limit : Option Nat} {factor : Production} {size : Nat}
    {c : Cursor} (h : (factor c).2.peekOperator? .power = none) :
    powerWithin limit factor size c = factor c := by
  cases size with
  | zero => rfl
  | succ size => simp [powerWithin_succ, Cursor.takeFold, h]

theorem termOf_eq (limit : Option Nat) (factor : Production) (c : Cursor) :
    termOf limit factor c = fold limit .product (powerOf limit factor) (powerOf limit factor c).1
      (powerOf limit factor c).2 := rfl

/-- The first term of an expression, under the sign if one leads it. -/
def leadingTerm (limit : Option Nat) (factor : Production) : Production := fun c =>
  match peekSign? c with
  | some sign => (.signed sign (termOf limit factor c.advance).1, (termOf limit factor c.advance).2)
  | none => termOf limit factor c

theorem expressionOf_eq (limit : Option Nat) (factor : Production) (c : Cursor) :
    expressionOf limit factor c = fold limit .sum (termOf limit factor)
      (leadingTerm limit factor c).1 (leadingTerm limit factor c).2 := by
  unfold expressionOf leadingTerm
  cases peekSign? c <;> rfl

theorem close_of_tokens {closing : Token} {c : Cursor} {rest : List Token}
    (h : c.tokens = closing :: rest) : close closing c = c.advance := by
  simp [close, h]

section

variable (hR : Cursor.Moves limit R)
include hR

theorem foldWithin_respects (level : Level) (h : Respects R operand) (size : Nat) (left : Expr) :
    Respects R (foldWithin limit level operand size left) := by
  induction size generalizing left with
  | zero => exact hR.refl
  | succ size ih =>
    intro c
    have hlink := hR.takeFold level c
    rw [foldWithin_succ]
    rcases ht : c.takeFold limit level with ⟨_ | op, next⟩
    · rwa [ht] at hlink
    · rw [ht] at hlink
      exact hR.trans (hR.trans hlink (h next)) (ih _ _)

theorem fold_respects (level : Level) (h : Respects R operand) (first : Expr) :
    Respects R (fold limit level operand first) :=
  fun c => hR.restore (foldWithin_respects hR level h _ first c)

theorem powerWithin_respects (h : Respects R factor) (size : Nat) :
    Respects R (powerWithin limit factor size) := by
  induction size with
  | zero => exact h
  | succ size ih =>
    intro c
    have hlink := hR.takeFold .power (factor c).2
    rw [powerWithin_succ]
    rcases ht : (factor c).2.takeFold limit .power with ⟨_ | op, next⟩
    · rw [ht] at hlink
      exact hR.trans (h c) hlink
    · rw [ht] at hlink
      exact hR.trans (h c) (hR.restore (hR.trans hlink (ih next)))

theorem powerOf_respects (h : Respects R factor) : Respects R (powerOf limit factor) :=
  fun c => powerWithin_respects hR h _ c

theorem termOf_respects (h : Respects R factor) : Respects R (termOf limit factor) :=
  fun c => hR.trans (powerOf_respects hR h c)
    (fold_respects hR .product (powerOf_respects hR h) _ _)

theorem leadingTerm_respects (h : Respects R factor) : Respects R (leadingTerm limit factor) := by
  have hterm := termOf_respects hR h
  intro c
  unfold leadingTerm
  split
  · exact hR.trans (hR.advance c) (hterm _)
  · exact hterm c

theorem expressionOf_respects (h : Respects R factor) : Respects R (expressionOf limit factor) := by
  intro c
  rw [expressionOf_eq]
  exact hR.trans (leadingTerm_respects hR h c) (fold_respects hR .sum (termOf_respects hR h) _ _)

variable (hunclosed : ∀ c : Cursor, R c { c with unclosed := c.unclosed + 1 })
include hunclosed

theorem close_respects (closing : Token) (c : Cursor) : R c (close closing c) := by
  unfold close
  split
  · exact hR.advance c
  · exact hunclosed c

theorem factorWithin_respects (size : Nat) : Respects R (factorWithin limit size) := by
  induction size with
  | zero => exact hR.refl
  | succ size ih =>
    have hgroup := (expressionOf_respects hR ih).nested hR
    have hcall := ih.nested hR
    have hsign := (powerOf_respects hR ih).nested hR
    have hclose := close_respects hR hunclosed
    intro c
    unfold factorWithin
    split
    · split
      · exact hR.trans (hR.advance c) (hsign _)
      · exact hR.refl c
    · exact hR.start c _
    · exact hR.start c _
    · exact hR.trans (hR.trans (hR.start c _) (hgroup _)) (hclose _ _)
    · exact hR.trans (hR.start c _) (hcall _)
    · exact hR.trans (hR.trans (hR.start c _) (hgroup _)) (hclose _ _)
    · exact hR.refl c

end

end Chained

namespace Grammar

/-- The production that reads the phrases of a level, or the factors. -/
def production : Grammar → Option Level → Option Nat → Production
  | single, some .sum => Single.expression
  | single, some .product => Single.term
  | single, some .power => Single.power
  | single, none => Single.factor
  | chained, some .sum => Chained.expression
  | chained, some .product => Chained.term
  | chained, some .power => Chained.power
  | chained, none => Chained.factor

/-- A relation that holds across the moves and the reports of a grammar holds across each of its
productions. -/
theorem production_respects (grammar : Grammar) (hR : Cursor.Moves limit R)
    (hdisplace : grammar = single → ∀ c e, R c (c.displace e))
    (hunclosed : grammar = chained → ∀ c : Cursor, R c { c with unclosed := c.unclosed + 1 })
    (r : Option Level) : Respects R (grammar.production r limit) := by
  intro c
  cases grammar with
  | single =>
    have hfactor := Single.factorWithin_respects hR (hdisplace rfl) c.tokens.length
    match r with
    | none => exact hfactor c
    | some .power => exact Single.joined_respects hR .power hfactor c
    | some .product => exact Single.termOf_respects hR hfactor c
    | some .sum => exact Single.expressionOf_respects hR (hdisplace rfl) hfactor c
  | chained =>
    have hfactor := Chained.factorWithin_respects hR (hunclosed rfl) c.tokens.length
    match r with
    | none => exact hfactor c
    | some .power => exact Chained.powerOf_respects hR hfactor c
    | some .product => exact Chained.termOf_respects hR hfactor c
    | some .sum => exact Chained.expressionOf_respects hR hfactor c

end Grammar
end Formula
