import Formula.Proofs.Grammar.Frame

/-!
# Readers in step

Two readers go the same way as long as they have the same tokens before them. Where the tokens of
the first reader end, the second one may have more, if no phrase goes on with them. The second
reader may also be deeper by a constant, if its limit is.
-/

set_option autoImplicit false

namespace Formula

/-- Whether the token is no operator and starts no factor, so that no phrase goes on with it. -/
def Token.isInert : Token → Bool
  | .closeParen | .endOfInput | .unknown _ => true
  | _ => false

/-- The tokens of the second reader begin with those of the first one, and no phrase goes on with
what comes then. -/
structure Prolongs (T : List Token → List Token → Prop) : Prop where
  next : ∀ {token rest tokens'}, T (token :: rest) tokens' →
    ∃ rest', tokens' = token :: rest' ∧ T rest rest'
  stop : ∀ {tokens'}, T [] tokens' → ∀ token ∈ tokens'.head?, token.isInert = true

/-- The relation among lists of limited lengths. -/
structure UpTo (size size' : Nat) (T : List Token → List Token → Prop)
    (tokens tokens' : List Token) : Prop where
  related : T tokens tokens'
  length_le : tokens.length ≤ size
  length_le' : tokens'.length ≤ size'

variable {T : List Token → List Token → Prop} {shift size size' : Nat} {limit : Option Nat}

theorem Token.startsFactor_of_isInert {token : Token} (h : token.isInert = true) :
    token.startsFactor = false := by
  cases token <;> first | rfl | cases h

theorem UpTo.eq_nil {tokens tokens' : List Token} (h : UpTo 0 size' T tokens tokens') :
    tokens = [] :=
  List.eq_nil_of_length_eq_zero (Nat.le_zero.mp h.length_le)

theorem UpTo.mono {tokens tokens' : List Token} (h : UpTo size size' T tokens tokens')
    {more more' : Nat} (hle : size ≤ more) (hle' : size' ≤ more') : UpTo more more' T tokens tokens' :=
  ⟨h.related, Nat.le_trans h.length_le hle, Nat.le_trans h.length_le' hle'⟩

theorem Prolongs.upTo (hT : Prolongs T) (size size' : Nat) : Prolongs (UpTo size size' T) where
  next := by
    rintro token rest tokens' ⟨hrelated, hle, hle'⟩
    obtain ⟨rest', rfl, hrest⟩ := hT.next hrelated
    exact ⟨rest', rfl, hrest, Nat.le_of_succ_le hle, Nat.le_of_succ_le hle'⟩
  stop h := hT.stop h.related

namespace Cursor

/-- The readers have reported the same, and the second one is deeper by a constant. -/
structure InStep (T : List Token → List Token → Prop) (shift : Nat) (c c' : Cursor) : Prop where
  tokens : T c.tokens c'.tokens
  depth : c'.depth = c.depth + shift
  tooDeep : c'.tooDeep = c.tooDeep
  unclosed : c'.unclosed = c.unclosed
  displaced : c'.displaced = c.displaced

namespace InStep

variable {c c' : Cursor}

theorem mono {T' : List Token → List Token → Prop} (h : InStep T shift c c')
    (htokens : T' c.tokens c'.tokens) : InStep T' shift c c' :=
  { h with tokens := htokens }

theorem widen (h : InStep (UpTo size size' T) shift c c') :
    InStep (UpTo (size + 1) (size' + 1) T) shift c c' :=
  h.mono (h.tokens.mono (Nat.le_succ size) (Nat.le_succ size'))

theorem head? (h : InStep T shift c c') (hT : Prolongs T) {token : Token} {rest : List Token}
    (hc : c.tokens = token :: rest) : ∃ rest', c'.tokens = token :: rest' := by
  obtain ⟨rest', htokens, _⟩ := hT.next (hc ▸ h.tokens)
  exact ⟨rest', htokens⟩

theorem inert (h : InStep T shift c c') (hT : Prolongs T) (hc : c.tokens = []) :
    ∀ token ∈ c'.tokens.head?, token.isInert = true :=
  hT.stop (hc ▸ h.tokens)

theorem peekOperator? (h : InStep T shift c c') (hT : Prolongs T) (level : Level) :
    c'.peekOperator? level = c.peekOperator? level := by
  unfold Cursor.peekOperator?
  rcases hc : c.tokens with _ | ⟨token, rest⟩
  · have hinert := h.inert hT hc
    split
    · rename_i op rest' ht
      rw [ht] at hinert
      cases hinert _ rfl
    · rfl
  · obtain ⟨rest', hc'⟩ := h.head? hT hc
    rw [hc']
    cases token <;> rfl

theorem isFull (h : InStep T shift c c') (limit : Option Nat) :
    c'.isFull (limit.map (· + shift)) = c.isFull limit := by
  cases limit with
  | none => rfl
  | some most => simp [Cursor.isFull, h.depth]

theorem note (h : InStep T shift c c') (step : Step) :
    InStep T shift (c.note step) (c'.note step) :=
  ⟨h.tokens, h.depth, h.tooDeep, h.unclosed, h.displaced⟩

theorem withDepth (h : InStep T shift c c') {shift' depth depth' : Nat}
    (hdepth : depth' = depth + shift') :
    InStep T shift' { c with depth } { c' with depth := depth' } :=
  ⟨h.tokens, hdepth, h.tooDeep, h.unclosed, h.displaced⟩

theorem descend (h : InStep T shift c c') : InStep T shift c.descend c'.descend := by
  refine ⟨h.tokens, ?_, h.tooDeep, h.unclosed, h.displaced⟩
  rw [descend_depth, descend_depth, h.depth, Nat.add_right_comm]

theorem reportTooDeep (h : InStep T shift c c') :
    InStep T shift { c with tooDeep := true } { c' with tooDeep := true } :=
  ⟨h.tokens, h.depth, rfl, h.unclosed, h.displaced⟩

theorem reportDepth (h : InStep T shift c c') : InStep T shift c.reportDepth c'.reportDepth := by
  refine ⟨?_, ?_, rfl, ?_, ?_⟩
  · rw [reportDepth_tokens, reportDepth_tokens]
    exact h.tokens
  · rw [reportDepth_depth, reportDepth_depth]
    exact h.depth
  · rw [reportDepth_unclosed, reportDepth_unclosed]
    exact h.unclosed
  · rw [reportDepth_displaced, reportDepth_displaced]
    exact h.displaced

theorem displace (h : InStep T shift c c') (e : Expr) :
    InStep T shift (c.displace e) (c'.displace e) :=
  ⟨h.tokens, h.depth, h.tooDeep, h.unclosed, congrArg (· ++ [e]) h.displaced⟩

theorem leaveOpen (h : InStep T shift c c') :
    InStep T shift { c with unclosed := c.unclosed + 1 } { c' with unclosed := c'.unclosed + 1 } :=
  ⟨h.tokens, h.depth, h.tooDeep, congrArg (· + 1) h.unclosed, h.displaced⟩

theorem advance (h : InStep T shift c c') (hT : Prolongs T) {token : Token} {rest : List Token}
    (hc : c.tokens = token :: rest) : InStep T shift c.advance c'.advance := by
  obtain ⟨rest', htokens, hrest⟩ := hT.next (hc ▸ h.tokens)
  refine ⟨?_, h.depth, h.tooDeep, h.unclosed, h.displaced⟩
  rw [advance_tokens, advance_tokens, hc, htokens]
  exact hrest

/-- Both readers have fewer tokens left after one that both take. -/
theorem advance_upTo (h : InStep (UpTo size size' T) shift c c') (hT : Prolongs T)
    {token : Token} {rest : List Token} (hc : c.tokens = token :: rest) :
    ∃ fewer fewer', size = fewer + 1 ∧ size' = fewer' + 1 ∧
      InStep (UpTo fewer fewer' T) shift c.advance c'.advance := by
  obtain ⟨rest', htokens, hrest⟩ := hT.next (hc ▸ h.tokens.related)
  have hle := h.tokens.length_le
  have hle' := h.tokens.length_le'
  rw [hc, List.length_cons] at hle
  rw [htokens, List.length_cons] at hle'
  refine ⟨size - 1, size' - 1, by omega, by omega, ?_, h.depth, h.tooDeep, h.unclosed, h.displaced⟩
  rw [advance_tokens, advance_tokens, hc, htokens]
  exact ⟨hrest, Nat.le_sub_one_of_lt hle, Nat.le_sub_one_of_lt hle'⟩

/-- Readers in step take the same links of a chain, and are stopped at the same one. -/
theorem takeFold (h : InStep (UpTo size size' T) shift c c') (hT : Prolongs T)
    (limit : Option Nat) {level : Level} {op : Operator} (hpeek : c.peekOperator? level = some op) :
    ∃ fewer fewer', size = fewer + 1 ∧ size' = fewer' + 1 ∧
      ((c.takeFold limit level = (none, { c with tooDeep := true }) ∧
        c'.takeFold (limit.map (· + shift)) level = (none, { c' with tooDeep := true })) ∨
      (c.takeFold limit level = (some op, c.advance.descend) ∧
        c'.takeFold (limit.map (· + shift)) level = (some op, c'.advance.descend) ∧
        InStep (UpTo fewer fewer' T) shift c.advance.descend c'.advance.descend)) := by
  have hpeek' : c'.peekOperator? level = some op :=
    (h.peekOperator? (hT.upTo size size') level).trans hpeek
  obtain ⟨fewer, fewer', hsize, hsize', hnext⟩ :=
    h.advance_upTo hT (Cursor.peekOperator?_eq_some hpeek).2
  refine ⟨fewer, fewer', hsize, hsize', ?_⟩
  simp only [Cursor.takeFold, hpeek, hpeek', h.isFull]
  split
  · exact .inl ⟨rfl, rfl⟩
  · exact .inr ⟨rfl, rfl, hnext.descend⟩

end InStep
end Cursor

/-- The results are the same, and the readers are still in step. -/
structure Agree (T : List Token → List Token → Prop) (shift : Nat) (result result' : Expr × Cursor) :
    Prop where
  expr : result'.1 = result.1
  inStep : result.2.InStep T shift result'.2

namespace Production

/-- Readers in step stay so. -/
def Follows (T : List Token → List Token → Prop) (shift : Nat) (p q : Production) : Prop :=
  ∀ ⦃c c' : Cursor⦄, c.InStep T shift c' → Agree T shift (p c) (q c')

theorem Follows.nested {p q : Production} (h : Follows T shift p q) (hp : p.Framed) (hq : q.Framed)
    (limit : Option Nat) :
    Follows T shift (p.nested limit) (q.nested (limit.map (· + shift))) := by
  intro c c' hstep
  unfold Production.nested
  rw [hstep.isFull]
  split
  · exact ⟨rfl, hstep.reportDepth⟩
  · have hinner : Agree T shift (p c.descend) (q c'.descend) := h hstep.descend
    refine ⟨hinner.expr, hinner.inStep.withDepth ?_⟩
    rw [hp.depth, hq.depth]
    exact hstep.depth

/-- A production leaves no more tokens than it started with. -/
theorem Follows.narrow {p q : Production} (h : Follows (UpTo size size' T) shift p q)
    (hp : p.Framed) (hq : q.Framed) {fewer fewer' : Nat} (hle : fewer ≤ size)
    (hle' : fewer' ≤ size') : Follows (UpTo fewer fewer' T) shift p q := by
  intro c c' hstep
  have hagree := h (hstep.mono (hstep.tokens.mono hle hle'))
  have hlength := (hp.reaches c).length_le.trans hstep.tokens.length_le
  have hlength' := (hq.reaches c').length_le.trans hstep.tokens.length_le'
  exact ⟨hagree.expr, hagree.inStep.mono ⟨hagree.inStep.tokens.related, hlength, hlength'⟩⟩

/-- The readers may take as many tokens as they have left. -/
theorem Follows.of_length {p q : Nat → Production}
    (h : ∀ fewer ≤ size, ∀ fewer' ≤ size',
      Follows (UpTo fewer fewer' T) shift (p fewer) (q fewer')) :
    Follows (UpTo size size' T) shift (fun c => p c.tokens.length c)
      (fun c => q c.tokens.length c) := by
  intro c c' hstep
  have hle := hstep.tokens.length_le
  have hle' := hstep.tokens.length_le'
  have hagree := h _ hle _ hle' (hstep.mono ⟨hstep.tokens.related, Nat.le_refl _, Nat.le_refl _⟩)
  exact ⟨hagree.expr, hagree.inStep.mono (hagree.inStep.tokens.mono hle hle')⟩

end Production

/-- Readers in step report the same, up to what they leave over. -/
theorem Grammar.readWithin_of_agree {grammar : Grammar} {limit limit' : Option Nat}
    {tokens tokens' : List Token}
    (h : Agree T shift (grammar.run limit tokens) (grammar.run limit' tokens')) :
    grammar.readWithin limit' tokens' =
      { grammar.readWithin limit tokens with
        unconsumed := (grammar.run limit' tokens').2.tokens.filter (· ≠ .endOfInput) } := by
  rw [readWithin, readWithin, Reading.mk.injEq]
  exact ⟨h.expr, rfl, h.inStep.unclosed, h.inStep.tooDeep, h.inStep.displaced⟩

end Formula
