import Formula.Proofs.Grammar.Frame

/-!
# The limit on the depth is silent or reported

A reader with a limit goes exactly the way of a reader without one, until the limit stops it. Then
it reports the limit, and the other one goes deeper. So what is proved of readers without a limit
holds of every reading that is not too deep.
-/

set_option autoImplicit false

namespace Formula

variable {limit : Option Nat}

/-- The limit has stopped the reader at the first position. The reader at the second one has gone
deeper. -/
structure Parted (limit : Option Nat) (c c' : Cursor) : Prop where
  tooDeep : c.tooDeep = true
  deepest : ∃ most ∈ limit, most < c'.deepest

theorem Parted.reaches {a b c d : Cursor} (h : Parted limit a b) (hac : a.Reaches c)
    (hbd : b.Reaches d) : Parted limit c d := by
  obtain ⟨most, hmost, hlt⟩ := h.deepest
  exact ⟨hac.tooDeep h.tooDeep, most, hmost, Nat.lt_of_lt_of_le hlt hbd.deepest⟩

theorem parted_of_isFull {c c' c'' : Cursor} (hfull : c.isFull limit = true)
    (htooDeep : c'.tooDeep = true) (hreach : c.descend.Reaches c'') : Parted limit c' c'' := by
  refine ⟨htooDeep, ?_⟩
  cases limit with
  | none => cases hfull
  | some most =>
    have hle : most ≤ c.depth := by simpa [Cursor.isFull] using hfull
    have hdescend : c.depth + 1 ≤ c.descend.deepest := Nat.le_max_right _ _
    exact ⟨most, rfl, Nat.lt_of_lt_of_le (Nat.lt_succ_of_le hle)
      (Nat.le_trans hdescend hreach.deepest)⟩

/-- The results are the same, or the limit has stopped the first reader. -/
def SameUnlessDeep (limit : Option Nat) (result result' : Expr × Cursor) : Prop :=
  result = result' ∨ Parted limit result.2 result'.2

/-- Readers that have parted stay so, and the others go on from the same place. -/
theorem SameUnlessDeep.bind {first first' result result' : Expr × Cursor}
    (h : SameUnlessDeep limit first first') (hreach : first.2.Reaches result.2)
    (hreach' : first'.2.Reaches result'.2)
    (hnext : first = first' → SameUnlessDeep limit result result') :
    SameUnlessDeep limit result result' := by
  rcases h with heq | hparted
  · exact hnext heq
  · exact .inr (hparted.reaches hreach hreach')

theorem SameUnlessDeep.map {result result' : Expr × Cursor}
    (h : SameUnlessDeep limit result result') (f : Expr → Expr) {g : Cursor → Cursor}
    (hg : ∀ c : Cursor, c.Reaches (g c)) :
    SameUnlessDeep limit (f result.1, g result.2) (f result'.1, g result'.2) := by
  rcases h with heq | hparted
  · exact .inl (by rw [heq])
  · exact .inr (hparted.reaches (hg _) (hg _))

namespace Production

/-- From every position, the first production does the same as the second one, or the limit stops
it. -/
def AgreesUnlessDeep (limit : Option Nat) (p q : Production) : Prop :=
  ∀ c, SameUnlessDeep limit (p c) (q c)

theorem AgreesUnlessDeep.nested {p q : Production} (hq : q.Framed)
    (hpq : p.AgreesUnlessDeep limit q) :
    (p.nested limit).AgreesUnlessDeep limit (q.nested none) := by
  intro c
  have hascend (c : Cursor) : c.Reaches c.ascend := c.reaches_withDepth _
  have hreach := (hq.reaches c.descend).trans (hascend _)
  unfold Production.nested
  rw [Cursor.isFull_none, if_neg Bool.false_ne_true]
  cases hfull : c.isFull limit with
  | true => exact .inr (parted_of_isFull hfull c.reportDepth_tooDeep hreach)
  | false =>
    rw [if_neg Bool.false_ne_true]
    exact (hpq c.descend).map id hascend

end Production

open Production (AgreesUnlessDeep)

variable {p q : Production} (hp : p.Framed) (hq : q.Framed) (hpq : AgreesUnlessDeep limit p q)

namespace Single

theorem joined_reaches (level : Level) (hp : p.Framed) (c : Cursor) :
    (p c).2.Reaches (joined level p c).2 := by
  rw [joined_eq]
  split
  · exact Cursor.Reaches.refl _
  · exact (Cursor.reaches_advance _).trans (hp.reaches _)

theorem expressionOf_reaches (hp : p.Framed) (c : Cursor) :
    (termOf p c).2.Reaches (expressionOf p c).2 := by
  rw [expressionOf_eq]
  split
  · exact Cursor.Reaches.refl _
  · split
    · exact (Cursor.reaches_advance _).trans ((signedTerm_framed hp _ _).reaches _)
    · exact (Cursor.reaches_advance _).trans ((termOf_framed hp).reaches _)

include hp hq hpq

theorem joined_agrees (level : Level) :
    AgreesUnlessDeep limit (joined level p) (joined level q) := by
  intro c
  apply (hpq c).bind (joined_reaches level hp c) (joined_reaches level hq c)
  intro heq
  rw [joined_eq, joined_eq, ← heq]
  split
  · exact .inl rfl
  · exact (hpq _).map _ Cursor.Reaches.refl

theorem termOf_agrees : AgreesUnlessDeep limit (termOf p) (termOf q) :=
  joined_agrees (powerOf_framed hp) (powerOf_framed hq) (joined_agrees hp hq hpq .power) .product

theorem signedTerm_agrees (before : Expr) (op : Operator) :
    AgreesUnlessDeep limit (signedTerm p before op) (signedTerm q before op) := by
  intro c
  have hterm := termOf_agrees hp hq hpq (signCursor before op c)
  rw [signedTerm_eq, signedTerm_eq]
  split
  · exact hterm.map _ Cursor.Reaches.refl
  · exact hterm

theorem expressionOf_agrees : AgreesUnlessDeep limit (expressionOf p) (expressionOf q) := by
  have hterm := termOf_agrees hp hq hpq
  intro c
  apply (hterm c).bind (expressionOf_reaches hp c) (expressionOf_reaches hq c)
  intro heq
  rw [expressionOf_eq, expressionOf_eq, ← heq]
  split
  · exact .inl rfl
  · split
    · exact signedTerm_agrees hp hq hpq _ _ _
    · exact (hterm _).map _ Cursor.Reaches.refl

omit hp hq hpq in
theorem factorWithin_agrees (limit : Option Nat) (size : Nat) :
    AgreesUnlessDeep limit (factorWithin limit size) (factorWithin none size) := by
  induction size with
  | zero => exact fun _ => .inl rfl
  | succ size ih =>
    have hp := factorWithin_framed limit size
    have hq := factorWithin_framed none size
    have hgroup := (expressionOf_agrees hp hq ih).nested (expressionOf_framed hq)
    have hcall := ih.nested hq
    intro c
    unfold factorWithin
    split
    · exact .inl rfl
    · exact .inl rfl
    · exact (hgroup _).map id Cursor.reaches_advance
    · exact (hcall _).map _ Cursor.Reaches.refl
    · exact (hgroup _).map Expr.absolute Cursor.reaches_advance
    · exact .inl rfl

end Single

namespace Chained

include hp hq hpq

theorem foldWithin_agrees (level : Level) (size : Nat) (left : Expr) :
    AgreesUnlessDeep limit (foldWithin limit level p size left)
      (foldWithin none level q size left) := by
  have hreach := foldWithin_reaches limit level hp
  have hreach' := foldWithin_reaches none level hq
  induction size generalizing left with
  | zero => exact fun _ => .inl rfl
  | succ size ih =>
    intro c
    rw [foldWithin_succ, foldWithin_succ]
    rcases c.takeFold_cases limit level with ⟨hk, ht⟩ | ⟨op, hk, hfull, ht⟩ | ⟨op, hk, _, ht⟩
    · have hnone : c.takeFold none level = (none, c) := by
        simp [Cursor.takeFold, hk]
      simp only [ht, hnone]
      exact .inl rfl
    · have hnone : c.takeFold none level = (some op, c.advance.descend) := by
        simp [Cursor.takeFold, hk]
      simp only [ht, hnone]
      -- Without the limit, the reader goes on with the link.
      have hfull' : c.advance.isFull limit = true := hfull
      exact .inr (parted_of_isFull hfull' rfl ((hq.reaches _).trans (hreach' _ _ _)))
    · have hnone : c.takeFold none level = (some op, c.advance.descend) := by
        simp [Cursor.takeFold, hk]
      simp only [ht, hnone]
      apply (hpq c.advance.descend).bind (hreach _ _ _) (hreach' _ _ _)
      intro heq
      rw [heq]
      exact ih _ _

theorem fold_agrees (level : Level) (first : Expr) :
    AgreesUnlessDeep limit (fold limit level p first) (fold none level q first) := by
  intro c
  have hlinks := foldWithin_agrees hp hq hpq level c.tokens.length first c
  exact hlinks.map id fun c' => c'.reaches_withDepth c.depth

theorem powerWithin_agrees (size : Nat) :
    AgreesUnlessDeep limit (powerWithin limit p size) (powerWithin none q size) := by
  induction size with
  | zero => exact hpq
  | succ size ih =>
    intro c
    apply (hpq c).bind (powerWithin_reaches hp c) (powerWithin_reaches hq c)
    intro heq
    have hreach' := (powerWithin_framed none hq size).reaches (p c).2.advance.descend
    rw [powerWithin_succ, powerWithin_succ, ← heq]
    rcases (p c).2.takeFold_cases limit .power with
      ⟨hk, ht⟩ | ⟨op, hk, hfull, ht⟩ | ⟨op, hk, _, ht⟩
    · have hnone : (p c).2.takeFold none .power = (none, (p c).2) := by
        simp [Cursor.takeFold, hk]
      simp only [ht, hnone]
      exact .inl rfl
    · have hnone : (p c).2.takeFold none .power = (some op, (p c).2.advance.descend) := by
        simp [Cursor.takeFold, hk]
      simp only [ht, hnone]
      have hfull' : (p c).2.advance.isFull limit = true := hfull
      exact .inr (parted_of_isFull hfull' rfl (hreach'.trans (Cursor.reaches_withDepth _ _)))
    · have hnone : (p c).2.takeFold none .power = (some op, (p c).2.advance.descend) := by
        simp [Cursor.takeFold, hk]
      simp only [ht, hnone]
      exact (ih (p c).2.advance.descend).map (Expr.binary op (p c).1)
        fun c' => c'.reaches_withDepth (p c).2.depth

theorem powerOf_agrees : AgreesUnlessDeep limit (powerOf limit p) (powerOf none q) :=
  fun c => powerWithin_agrees hp hq hpq c.tokens.length c

theorem termOf_agrees : AgreesUnlessDeep limit (termOf limit p) (termOf none q) := by
  have hp' := powerOf_framed limit hp
  have hq' := powerOf_framed none hq
  have hpower := powerOf_agrees hp hq hpq
  intro c
  rw [termOf_eq, termOf_eq]
  apply (hpower c).bind ((fold_framed limit .product hp' _).reaches _)
    ((fold_framed none .product hq' _).reaches _)
  intro heq
  rw [← heq]
  exact fold_agrees hp' hq' hpower .product _ _

theorem leadingTerm_agrees : AgreesUnlessDeep limit (leadingTerm limit p) (leadingTerm none q) := by
  have hterm := termOf_agrees hp hq hpq
  intro c
  unfold leadingTerm
  split
  · exact (hterm _).map _ Cursor.Reaches.refl
  · exact hterm c

theorem expressionOf_agrees :
    AgreesUnlessDeep limit (expressionOf limit p) (expressionOf none q) := by
  have hp' := termOf_framed limit hp
  have hq' := termOf_framed none hq
  intro c
  rw [expressionOf_eq, expressionOf_eq]
  apply (leadingTerm_agrees hp hq hpq c).bind ((fold_framed limit .sum hp' _).reaches _)
    ((fold_framed none .sum hq' _).reaches _)
  intro heq
  rw [← heq]
  exact fold_agrees hp' hq' (termOf_agrees hp hq hpq) .sum _ _

omit hp hq hpq in
theorem factorWithin_agrees (limit : Option Nat) (size : Nat) :
    AgreesUnlessDeep limit (factorWithin limit size) (factorWithin none size) := by
  induction size with
  | zero => exact fun _ => .inl rfl
  | succ size ih =>
    have hp := factorWithin_framed limit size
    have hq := factorWithin_framed none size
    have hgroup := (expressionOf_agrees hp hq ih).nested (expressionOf_framed none hq)
    have hcall := ih.nested hq
    have hsign := (powerOf_agrees hp hq ih).nested (powerOf_framed none hq)
    intro c
    unfold factorWithin
    split
    · split
      · exact (hsign _).map _ Cursor.Reaches.refl
      · exact .inl rfl
    · exact .inl rfl
    · exact .inl rfl
    · exact (hgroup _).map id (reaches_close .closeParen)
    · exact (hcall _).map _ Cursor.Reaches.refl
    · exact (hgroup _).map Expr.absolute (reaches_close .bar)
    · exact .inl rfl

end Chained

namespace Grammar

theorem run_agrees (grammar : Grammar) (limit : Option Nat) (tokens : List Token) :
    SameUnlessDeep limit (grammar.run limit tokens) (grammar.run none tokens) := by
  cases grammar with
  | single =>
    exact Single.expressionOf_agrees (Single.factorWithin_framed _ _)
      (Single.factorWithin_framed _ _) (Single.factorWithin_agrees limit _) _
  | chained =>
    exact Chained.expressionOf_agrees (Chained.factorWithin_framed _ _)
      (Chained.factorWithin_framed _ _) (Chained.factorWithin_agrees limit _) _

/-- A reading that is not too deep is the reading without a limit. -/
theorem run_eq_run_none (grammar : Grammar) (limit : Option Nat) (tokens : List Token)
    (h : (grammar.run limit tokens).2.tooDeep = false) :
    grammar.run limit tokens = grammar.run none tokens := by
  rcases grammar.run_agrees limit tokens with heq | hparted
  · exact heq
  · exact absurd hparted.tooDeep (by simp [h])

/-- The limit is reported if and only if the reader without a limit goes deeper. -/
theorem tooDeep_run_iff (grammar : Grammar) (most : Nat) (tokens : List Token) :
    (grammar.run (some most) tokens).2.tooDeep = true ↔
      most < (grammar.run none tokens).2.deepest := by
  constructor
  · intro h
    rcases grammar.run_agrees (some most) tokens with heq | hparted
    · rw [heq, grammar.tooDeep_run_none] at h
      cases h
    · obtain ⟨most', hmost, hlt⟩ := hparted.deepest
      obtain rfl := Option.some.inj hmost
      exact hlt
  · intro hlt
    by_contra h
    have hle := grammar.deepest_run_le most tokens
    rw [grammar.run_eq_run_none _ tokens (eq_false_of_ne_true h)] at hle
    omega

/-- With a limit that is not reached, a reading is the same with any higher limit. -/
theorem run_eq_run_of_le (grammar : Grammar) {less more : Nat} (hle : less ≤ more)
    (tokens : List Token) (h : (grammar.run (some less) tokens).2.tooDeep = false) :
    grammar.run (some more) tokens = grammar.run (some less) tokens := by
  have hmore : (grammar.run (some more) tokens).2.tooDeep = false := by
    by_contra hdeep
    have hlt := (grammar.tooDeep_run_iff more tokens).mp (eq_true_of_ne_false hdeep)
    have hless := (grammar.tooDeep_run_iff less tokens).mpr (Nat.lt_of_le_of_lt hle hlt)
    rw [h] at hless
    cases hless
  rw [grammar.run_eq_run_none _ tokens hmore, grammar.run_eq_run_none _ tokens h]

theorem tooDeep_read (grammar : Grammar) (tokens : List Token) :
    (grammar.read tokens).tooDeep = (grammar.run (some deepestNesting) tokens).2.tooDeep := rfl

/-- The limit on the depth is transparent unless it is reported, and it is reported only where a
reader without a limit goes deeper. -/
theorem read_eq_readWithin_none (grammar : Grammar) (tokens : List Token) :
    ((grammar.read tokens).tooDeep = false →
      grammar.read tokens = grammar.readWithin none tokens) ∧
    ((grammar.read tokens).tooDeep = true ↔
      deepestNesting < (grammar.run none tokens).2.deepest) := by
  refine ⟨?_, grammar.tooDeep_run_iff deepestNesting tokens⟩
  intro h
  rw [read, readWithin, readWithin, grammar.run_eq_run_none (some deepestNesting) tokens h]

/-- As many parentheses as the limit allows are read as without it. -/
theorem read_parens_up_to_limit :
    let tokens := List.replicate deepestNesting Token.openParen ++ [.letter .x]
    (Grammar.chained.read tokens).tooDeep = false ∧
      Grammar.chained.read tokens = Grammar.chained.readWithin none tokens := by
  intro tokens
  have hdeep : (Grammar.chained.read tokens).tooDeep = false := by decide +kernel
  exact ⟨hdeep, (read_eq_readWithin_none .chained tokens).1 hdeep⟩

end Grammar

end Formula
