import Formula.Proofs.Grammar.InStep

/-!
# Readers of chains in step

A reader of chains takes only the closing token of its group. So nothing that comes after the
tokens of another reader is taken, if it does not close a group.
-/

set_option autoImplicit false

namespace Formula.Chained

open Production (Follows)

variable {T : List Token → List Token → Prop} {shift size size' : Nat} {p q : Production}

section

variable (hT : Prolongs T) (h : Follows (UpTo size size' T) shift p q) (hp : p.Framed)
  (hq : q.Framed) (limit : Option Nat)
include hT h hp hq

theorem foldWithin_follows (level : Level) {fewer fewer' : Nat} (hle : fewer ≤ size)
    (hle' : fewer' ≤ size') (left : Expr) :
    Follows (UpTo fewer fewer' T) shift (foldWithin limit level p fewer left)
      (foldWithin (limit.map (· + shift)) level q fewer' left) := by
  -- Without an operator both readers are done, whatever number of tokens they may take.
  have hdone {fewer fewer' : Nat} {left : Expr} {c c' : Cursor}
      (hstep : c.InStep (UpTo fewer fewer' T) shift c') (hpeek : c.peekOperator? level = none) :
      Agree (UpTo fewer fewer' T) shift (foldWithin limit level p fewer left c)
        (foldWithin (limit.map (· + shift)) level q fewer' left c') := by
    have hpeek' := (hstep.peekOperator? (hT.upTo fewer fewer') level).trans hpeek
    rw [foldWithin_of_peekOperator? hpeek, foldWithin_of_peekOperator? hpeek']
    exact ⟨rfl, hstep⟩
  induction fewer generalizing fewer' left with
  | zero =>
    intro c c' hstep
    apply hdone hstep
    simp [Cursor.peekOperator?, hstep.tokens.eq_nil]
  | succ fewer ih =>
    intro c c' hstep
    cases hpeek : c.peekOperator? level with
    | none => exact hdone hstep hpeek
    | some op =>
      obtain ⟨_, less', hfewer, rfl, htake⟩ := hstep.takeFold hT limit hpeek
      obtain rfl := Nat.succ.inj hfewer
      rw [foldWithin_succ, foldWithin_succ]
      rcases htake with ⟨ht, ht'⟩ | ⟨ht, ht', hlink⟩
      · simp only [ht, ht']
        exact ⟨rfl, hstep.reportTooDeep⟩
      · simp only [ht, ht']
        have hless := Nat.le_of_succ_le hle
        have hless' := Nat.le_of_succ_le hle'
        have hright := h.narrow hp hq hless hless' hlink
        have hrest := ih hless hless' (.binary op left (p c.advance.descend).1) hright.inStep
        rw [hright.expr]
        exact ⟨hrest.expr, hrest.inStep.widen⟩

theorem fold_follows (level : Level) (first : Expr) :
    Follows (UpTo size size' T) shift (fold limit level p first)
      (fold (limit.map (· + shift)) level q first) := by
  have hlinks := Follows.of_length fun fewer hle fewer' hle' =>
    foldWithin_follows hT h hp hq limit level hle hle' first
  intro c c' hstep
  have hagree := hlinks hstep
  exact ⟨hagree.expr, hagree.inStep.withDepth hstep.depth⟩

theorem powerWithin_follows {fewer fewer' : Nat} (hle : fewer ≤ size) (hle' : fewer' ≤ size') :
    Follows (UpTo fewer fewer' T) shift (powerWithin limit p fewer)
      (powerWithin (limit.map (· + shift)) q fewer') := by
  have hdone {fewer fewer' : Nat} {c c' : Cursor}
      (hbase : Agree (UpTo fewer fewer' T) shift (p c) (q c'))
      (hpeek : (p c).2.peekOperator? .power = none) :
      Agree (UpTo fewer fewer' T) shift (powerWithin limit p fewer c)
        (powerWithin (limit.map (· + shift)) q fewer' c') := by
    have hpeek' := (hbase.inStep.peekOperator? (hT.upTo fewer fewer') .power).trans hpeek
    rw [powerWithin_of_peekOperator? hpeek, powerWithin_of_peekOperator? hpeek']
    exact hbase
  induction fewer generalizing fewer' with
  | zero =>
    intro c c' hstep
    have hbase := h.narrow hp hq hle hle' hstep
    apply hdone hbase
    simp [Cursor.peekOperator?, hbase.inStep.tokens.eq_nil]
  | succ fewer ih =>
    intro c c' hstep
    have hbase := h.narrow hp hq hle hle' hstep
    cases hpeek : (p c).2.peekOperator? .power with
    | none => exact hdone hbase hpeek
    | some op =>
      obtain ⟨_, less', hfewer, rfl, htake⟩ := hbase.inStep.takeFold hT limit hpeek
      obtain rfl := Nat.succ.inj hfewer
      rw [powerWithin_succ, powerWithin_succ, hbase.expr]
      rcases htake with ⟨ht, ht'⟩ | ⟨ht, ht', hlink⟩
      · simp only [ht, ht']
        exact ⟨rfl, hbase.inStep.reportTooDeep⟩
      · simp only [ht, ht']
        have hexponent := ih (Nat.le_of_succ_le hle) (Nat.le_of_succ_le hle') hlink
        exact ⟨congrArg (Expr.binary op _) hexponent.expr,
          hexponent.inStep.widen.withDepth hbase.inStep.depth⟩

theorem powerOf_follows :
    Follows (UpTo size size' T) shift (powerOf limit p) (powerOf (limit.map (· + shift)) q) :=
  Follows.of_length fun _ hle _ hle' => powerWithin_follows hT h hp hq limit hle hle'

theorem termOf_follows :
    Follows (UpTo size size' T) shift (termOf limit p) (termOf (limit.map (· + shift)) q) := by
  have hpower := powerOf_follows hT h hp hq limit
  have hp' := powerOf_framed limit hp
  have hq' := powerOf_framed (limit.map (· + shift)) hq
  intro c c' hstep
  have hfirst := hpower hstep
  rw [termOf_eq, termOf_eq, hfirst.expr]
  exact fold_follows hT hpower hp' hq' limit .product _ hfirst.inStep

theorem leadingTerm_follows :
    Follows (UpTo size size' T) shift (leadingTerm limit p)
      (leadingTerm (limit.map (· + shift)) q) := by
  have hterm := termOf_follows hT h hp hq limit
  intro c c' hstep
  have hpeek := hstep.peekOperator? (hT.upTo size size') .sum
  unfold leadingTerm peekSign?
  rw [hpeek]
  cases hop : c.peekOperator? .sum with
  | none => exact hterm hstep
  | some op =>
    have hnext := hstep.advance (hT.upTo size size') (Cursor.peekOperator?_eq_some hop).2
    rw [Option.bind_some]
    cases op.sign? with
    | none => exact hterm hstep
    | some sign => exact ⟨congrArg (Expr.signed sign) (hterm hnext).expr, (hterm hnext).inStep⟩

theorem expressionOf_follows :
    Follows (UpTo size size' T) shift (expressionOf limit p)
      (expressionOf (limit.map (· + shift)) q) := by
  have hterm := termOf_follows hT h hp hq limit
  have hp' := termOf_framed limit hp
  have hq' := termOf_framed (limit.map (· + shift)) hq
  intro c c' hstep
  have hfirst := leadingTerm_follows hT h hp hq limit hstep
  rw [expressionOf_eq, expressionOf_eq, hfirst.expr]
  exact fold_follows hT hterm hp' hq' limit .sum _ hfirst.inStep

end

theorem close_inStep (hT : Prolongs T) {closing : Token}
    (hopen : ∀ {tokens'}, T [] tokens' → tokens'.head? ≠ some closing) {c c' : Cursor}
    (h : c.InStep T shift c') : (close closing c).InStep T shift (close closing c') := by
  have hhead : c'.tokens.head? = some closing ↔ c.tokens.head? = some closing := by
    rcases hc : c.tokens with _ | ⟨token, rest⟩
    · exact iff_of_false (hopen (hc ▸ h.tokens)) (by simp)
    · obtain ⟨rest', hc'⟩ := h.head? hT hc
      rw [hc', List.head?_cons, List.head?_cons]
  unfold close
  rw [if_congr hhead rfl rfl]
  split
  · rename_i htoken
    obtain ⟨rest, hc⟩ := List.head?_eq_some_iff.mp htoken
    exact h.advance hT hc
  · exact h.leaveOpen

theorem factorWithin_of_isInert {limit : Option Nat} {c : Cursor}
    (h : ∀ token ∈ c.tokens.head?, token.isInert = true) :
    factorWithin limit size c = (.missing, c) := by
  cases size with
  | zero => rfl
  | succ size =>
    unfold factorWithin
    rcases hc : c.tokens with _ | ⟨token, rest⟩
    · rfl
    · have hinert : token.isInert = true := h token (by rw [hc]; rfl)
      cases token <;> first | rfl | cases hinert

theorem factorWithin_follows (hT : Prolongs T)
    (hopen : ∀ {tokens'}, T [] tokens' → tokens'.head? ≠ some .closeParen) (limit : Option Nat)
    (size size' : Nat) :
    Follows (UpTo size size' T) shift (factorWithin limit size)
      (factorWithin (limit.map (· + shift)) size') := by
  have hopenBar {tokens' : List Token} (h : T [] tokens') : tokens'.head? ≠ some .bar :=
    fun hbar => Bool.false_ne_true (hT.stop h _ hbar)
  induction size generalizing size' with
  | zero =>
    intro c c' hstep
    rw [factorWithin_of_isInert (hstep.inert (hT.upTo 0 size') hstep.tokens.eq_nil)]
    exact ⟨rfl, hstep⟩
  | succ size ih =>
    intro c c' hstep
    rcases hc : c.tokens with _ | ⟨token, rest⟩
    · have hinert := hstep.inert (hT.upTo _ size') hc
      rw [factorWithin_of_isInert hinert, factorWithin_of_isInert (by simp [hc])]
      exact ⟨rfl, hstep⟩
    · obtain ⟨rest', hc'⟩ := hstep.head? (hT.upTo _ size') hc
      obtain ⟨_, fewer', hsize, rfl, hnext⟩ := hstep.advance_upTo hT hc
      obtain rfl := Nat.succ.inj hsize
      have hp := factorWithin_framed limit size
      have hq := factorWithin_framed (limit.map (· + shift)) fewer'
      have hcall := (ih fewer').nested hp hq limit
      have hsigned := (powerOf_follows hT (ih fewer') hp hq limit).nested
        (powerOf_framed _ hp) (powerOf_framed _ hq) limit
      have hgroup := (expressionOf_follows hT (ih fewer') hp hq limit).nested
        (expressionOf_framed _ hp) (expressionOf_framed _ hq) limit
      have hstart := hnext.note (.factor token)
      unfold factorWithin
      rw [hc, hc']
      cases token with
      | number value => exact ⟨rfl, hstart.widen⟩
      | letter v => exact ⟨rfl, hstart.widen⟩
      | operator op =>
        dsimp only
        cases op.sign? with
        | none => exact ⟨rfl, hstep⟩
        | some sign =>
          have hoperand := hsigned hnext
          exact ⟨congrArg (Expr.signed sign) hoperand.expr, hoperand.inStep.widen⟩
      | openParen =>
        have hinner := hgroup hstart
        have hclose := close_inStep (hT.upTo size fewer') (fun h => hopen h.related) hinner.inStep
        exact ⟨hinner.expr, hclose.widen⟩
      | function f =>
        have hargument := hcall hstart
        exact ⟨congrArg (Expr.call f) hargument.expr, hargument.inStep.widen⟩
      | bar =>
        have hinner := hgroup hstart
        have hclose := close_inStep (hT.upTo size fewer') (fun h => hopenBar h.related) hinner.inStep
        exact ⟨congrArg Expr.absolute hinner.expr, hclose.widen⟩
      | _ => exact ⟨rfl, hstep⟩

end Formula.Chained
