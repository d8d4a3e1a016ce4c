import Formula.Proofs.Chained.Precedence
import Formula.Proofs.Chained.Rereading

/-!
# Chains are read by the precedence of their operators

The reader of chains takes a chain from its front, and at each level it goes on as long as no looser
operator comes. The reading of what it has taken is known at every step: an operator that it links
is the last one of its level so far. So the whole chain has the reading that splits it at its last
operators.
-/

set_option autoImplicit false

namespace Formula.Chained

open Chain

namespace Chain

variable {α : Type}

/-- The chain of the part and of what comes after it. -/
def followed (part : Chain α) : Option (Operator × Chain α) → Chain α
  | none => part
  | some (op, rest) => part.join op rest

theorem join_assoc (left : Chain α) (op : Operator) (middle : Chain α) (op' : Operator)
    (right : Chain α) :
    (left.join op middle).join op' right = left.join op (middle.join op' right) := by
  induction left with
  | last operand => rfl
  | signed sign rest ih => exact congrArg (signed sign) ih
  | link operand op'' rest ih => exact congrArg (link operand op'') ih

theorem signed_followed (sign : Sign) (part : Chain α) (rest : Option (Operator × Chain α)) :
    (signed sign part).followed rest = signed sign (part.followed rest) := by
  cases rest <;> rfl

theorem join_followed (left : Chain α) (op : Operator) (part : Chain α)
    (rest : Option (Operator × Chain α)) :
    (left.join op part).followed rest = left.join op (part.followed rest) := by
  cases rest with
  | none => rfl
  | some next => exact join_assoc left op part next.1 next.2

/-- A part of a chain is signed only if the chain is. -/
theorem leadingProduct_exprs_of_followed {part : Chain Operand}
    {rest : Option (Operator × Chain Operand)}
    (h : ∀ sign s, part.followed rest ≠ signed sign s) :
    part.exprs.leadingProduct = part.exprs.product := by
  cases part with
  | signed sign part => exact absurd (signed_followed sign part rest) (h _ _)
  | _ => rfl

end Chain

def linkTokens : Option (Operator × Chain Operand) → List Token
  | none => []
  | some (op, rest) => .operator op :: rest.tokens

variable {level next : Level} {r : Option Level} {size : Nat} {factor operand : Production}
variable {c : Cursor} {s : Chain Operand} {after : List Token}

/-- The result is the reading of a part of the chain that has no operator looser than the level,
and the part ends where a phrase could end. -/
def ReadsPart (level : Level) (r : Option Level) (c : Cursor) (s : Chain Operand)
    (after : List Token) (result : Expr × Cursor) : Prop :=
  ∃ (part : Chain Operand) (rest : Option (Operator × Chain Operand)),
    s = part.followed rest ∧ part.Tight level ∧ StopsAt r (linkTokens rest ++ after) ∧
      ReadsAs c (part.exprs.reading level) (linkTokens rest ++ after) result

/-- Of every chain of at most so many tokens, the production reads such a part. -/
def ReadsParts (level : Level) (r : Option Level) (size : Nat) (p : Production) : Prop :=
  ∀ (c : Cursor) (s : Chain Operand) (after : List Token), c.tokens = s.tokens ++ after →
    c.tokens.length ≤ size → StopsAt (some .sum) after → ReadsPart level r c s after (p c)

/-- The factors that a chain starts with: an operand, or a sign and the power after it. -/
structure ReadsFactors (size : Nat) (p : Production) : Prop where
  operand : ∀ (c : Cursor) (a : Operand) (rest : List Token), c.tokens = a.tokens ++ rest →
    c.tokens.length ≤ size → ReadsAs c a.expr rest (p c)
  signed : ∀ (c : Cursor) (sign : Sign) (s : Chain Operand) (after : List Token),
    c.tokens = .operator sign.operator :: (s.tokens ++ after) → c.tokens.length ≤ size →
    StopsAt (some .sum) after → ReadsPart .power (some .power) c (.signed sign s) after (p c)

theorem Operand.tokens_startsFactor (a : Operand) :
    ∃ token rest, a.tokens = token :: rest ∧ token.startsFactor = true := by
  cases a with
  | number value => exact ⟨_, _, rfl, rfl⟩
  | letter v => exact ⟨_, _, rfl, rfl⟩
  | group b content => exact ⟨_, _, rfl, by cases b <;> rfl⟩
  | call f argument => exact ⟨_, _, rfl, rfl⟩

theorem Operand.tokens_ne_nil (a : Operand) : a.tokens ≠ [] := by
  cases a <;> exact List.cons_ne_nil _ _

theorem Chain.tokens_ne_nil (s : Chain Operand) : s.tokens ≠ [] := by
  cases s with
  | last a => exact a.tokens_ne_nil
  | signed sign rest => exact List.cons_ne_nil _ _
  | link a op rest => exact List.append_ne_nil_of_left_ne_nil a.tokens_ne_nil _

/-- What is left of a chain starts with an operator, if something is left. -/
theorem eq_none_of_stopsAt {rest : Option (Operator × Chain Operand)}
    (h : StopsAt (some .sum) (linkTokens rest ++ after)) : rest = none := by
  cases rest with
  | none => rfl
  | some next => exact absurd h (Nat.not_lt_zero _)

theorem ReadsPart.readsAs {result : Expr × Cursor}
    (h : ReadsPart .sum (some .sum) c s after result) : ReadsAs c s.exprs.sum after result := by
  obtain ⟨part, rest, rfl, -, hstop, hread⟩ := h
  obtain rfl := eq_none_of_stopsAt hstop
  exact hread

/-- An exponent that is read as a part of the chain makes a power of the operand before it. -/
theorem ReadsPart.raised {a : Operand} {base exponent : Expr × Cursor}
    (hbase : ReadsAs c a.expr (.operator .power :: (s.tokens ++ after)) base)
    (hexponent : ReadsPart .power r base.2.advance.descend s after exponent) :
    ReadsPart .power r c (link a .power s) after
      (.binary .power base.1 exponent.1, { exponent.2 with depth := base.2.depth }) := by
  obtain ⟨part, rest, rfl, htight, hstop, hread⟩ := hexponent
  have hpower : (link a .power part).Tight .power :=
    List.forall_mem_cons.mpr ⟨Nat.le_refl _, htight⟩
  have hlink : c.descend.Quiet exponent.2 := (Cursor.quiet_link hbase.quiet).trans hread.quiet
  refine ⟨link a .power part, rest, ?_, hpower, hstop, ?_, hread.tokens,
    Cursor.quiet_withDepth hlink hbase.quiet.depth⟩
  · exact (join_followed (last a) .power part rest).symm
  · simp only [hbase.expr, hread.expr]
    rfl

theorem powerWithin_readsPart (h : ReadsFactors size factor) (fuel : Nat) (c : Cursor)
    (hfuel : c.tokens.length ≤ fuel) (s : Chain Operand) (after : List Token)
    (htokens : c.tokens = s.tokens ++ after) (hsize : c.tokens.length ≤ size)
    (hafter : StopsAt (some .sum) after) :
    ReadsPart .power (some .power) c s after (powerWithin none factor fuel c) := by
  induction fuel generalizing c s with
  | zero =>
    exact absurd hfuel (Nat.not_le_of_lt (length_pos_of_append s.tokens_ne_nil htokens))
  | succ fuel ih =>
    cases s with
    | last a =>
      have hread := h.operand c a after htokens hsize
      have hstop : StopsAt (some .power) after := hafter.operand.operand
      rw [powerWithin_of_stopsAt (by rwa [hread.tokens])]
      exact ⟨last a, none, rfl, List.forall_mem_nil _, hstop, hread⟩
    | signed sign s =>
      have hread := h.signed c sign s after htokens hsize hafter
      obtain ⟨part, rest, hs, htight, hstop, hreads⟩ := hread
      rw [powerWithin_of_stopsAt (by rwa [hreads.tokens])]
      exact ⟨part, rest, hs, htight, hstop, hreads⟩
    | link a op s =>
      rw [Chain.tokens, List.append_assoc, List.cons_append] at htokens
      have hbase := h.operand c a _ htokens hsize
      by_cases hop : op = .power
      · subst hop
        have ht : (factor c).2.takeFold none .power =
            (some .power, (factor c).2.advance.descend) :=
          takeFold_of_operator rfl hbase.tokens (hasRoom_none _)
        have hnext : (factor c).2.advance.descend.tokens = s.tokens ++ after := by
          simp [hbase.tokens]
        have hlength : (s.tokens ++ after).length < c.tokens.length := by
          simp only [htokens, List.length_append, List.length_cons]
          omega
        have hexponent := ih (factor c).2.advance.descend (by rw [hnext]; omega) s hnext
          (by rw [hnext]; omega)
        rw [powerWithin_succ, ht]
        exact ReadsPart.raised hbase hexponent
      · have hstop : StopsAt (some .power) (.operator op :: (s.tokens ++ after)) := by
          cases op <;> simp_all [StopsAt, Operator.level, Level.strength]
        rw [powerWithin_of_stopsAt (by rwa [hbase.tokens])]
        exact ⟨last a, some (op, s), rfl, List.forall_mem_nil _, hstop, hbase⟩

theorem powerOf_readsParts (h : ReadsFactors size factor) :
    ReadsParts .power (some .power) size (powerOf none factor) :=
  fun c => powerWithin_readsPart h c.tokens.length c (Nat.le_refl _)

/-- An operator that comes next is the first of what is left of the chain. -/
theorem link_of_peekOperator? {op : Operator} {rest : Option (Operator × Chain Operand)}
    (htokens : c.tokens = linkTokens rest ++ after) (hafter : StopsAt (some .sum) after)
    (hpeek : c.peekOperator? level = some op) :
    ∃ s, rest = some (op, s) ∧ c.tokens.tail = s.tokens ++ after := by
  obtain ⟨_, hhead⟩ := Cursor.peekOperator?_eq_some hpeek
  cases rest with
  | none =>
    rw [linkTokens, List.nil_append] at htokens
    rw [← htokens, hhead] at hafter
    exact absurd hafter (Nat.not_lt_zero _)
  | some link =>
    obtain ⟨op', s⟩ := link
    rw [linkTokens, List.cons_append] at htokens
    rw [htokens, List.tail_cons, List.cons.injEq, Token.operator.injEq] at hhead
    exact ⟨s, by rw [hhead.1], by rw [htokens, List.tail_cons]⟩

/-- The expression so far is the reading of the part, and each link makes the part longer. -/
theorem foldWithin_readsPart (hnext : level.operand = some next) (hframed : operand.Framed)
    (h : ReadsParts next (some next) size operand) (fuel : Nat) (part : Chain Operand)
    (rest : Option (Operator × Chain Operand)) (c : Cursor) (hfuel : c.tokens.length ≤ fuel)
    (htokens : c.tokens = linkTokens rest ++ after) (hsize : c.tokens.length ≤ size)
    (htight : part.Tight level) (hstop : StopsAt (some next) c.tokens)
    (hafter : StopsAt (some .sum) after) :
    ReadsPart level (some level) c (part.followed rest) after
      ((foldWithin none level operand fuel (part.exprs.reading level) c).1,
        { (foldWithin none level operand fuel (part.exprs.reading level) c).2 with
          depth := c.depth }) := by
  induction fuel generalizing part rest c with
  | zero =>
    have hnil : c.tokens = [] := List.length_eq_zero_iff.mp (Nat.le_zero.mp hfuel)
    have hends : StopsAt (some level) c.tokens := by
      rw [hnil]
      exact stopsAt_nil _
    rw [htokens] at hends
    exact ⟨part, rest, rfl, htight, hends, rfl, htokens, Cursor.Quiet.refl c⟩
  | succ fuel ih =>
    rw [foldWithin_succ]
    rcases c.takeFold_none_cases level with ⟨hpeek, ht⟩ | ⟨op, hpeek, ht⟩
    · have hends : StopsAt (some level) c.tokens :=
        StopsAt.of_peekOperator? (by rwa [hnext]) hpeek
      rw [htokens] at hends
      rw [ht]
      exact ⟨part, rest, rfl, htight, hends, rfl, htokens, Cursor.Quiet.refl c⟩
    · obtain ⟨hop, hhead⟩ := Cursor.peekOperator?_eq_some hpeek
      obtain ⟨s, rfl, htail⟩ := link_of_peekOperator? htokens hafter hpeek
      have hshorter := congrArg List.length hhead
      rw [List.length_cons] at hshorter
      have hlink : c.advance.descend.tokens = s.tokens ++ after := htail
      obtain ⟨part', rest', rfl, htight', hstop', hread⟩ :=
        h c.advance.descend s after hlink (by simp; omega) hafter
      have hlength := (hframed.reaches c.advance.descend).length_le
      rw [Cursor.descend_tokens, Cursor.advance_tokens] at hlength
      have hjoin : Expr.binary op (part.exprs.reading level) (part'.exprs.reading next) =
          (part.join op part').exprs.reading level := by
        rw [exprs_join]
        exact (reading_join hnext hop (htight'.exprs.splitLast?_eq_none hnext)).symm
      have hrest := ih (part.join op part') rest' (operand c.advance.descend).2 (by omega)
        hread.tokens (by omega) (htight.join hop htight' hnext) (by rwa [hread.tokens])
      rw [ht]
      simp only [hread.expr, hjoin]
      obtain ⟨part'', rest'', hs, htight'', hends, hreads⟩ := hrest
      have hquiet := hread.quiet.trans hreads.quiet
      refine ⟨part'', rest'', ?_, htight'', hends, hreads.expr, hreads.tokens, ?_⟩
      · rw [← hs, join_followed]
        rfl
      · exact ⟨rfl, hquiet.tooDeep, hquiet.unclosed, hquiet.displaced⟩

/-- After a first operand, the fold goes on to the end of a part of its own level. -/
theorem fold_readsPart (hnext : level.operand = some next) (hframed : operand.Framed)
    (h : ReadsParts next (some next) size operand) {result : Expr × Cursor}
    (hfirst : ReadsPart level (some next) c s after result)
    (hsize : result.2.tokens.length ≤ size) (hafter : StopsAt (some .sum) after) :
    ReadsPart level (some level) c s after (fold none level operand result.1 result.2) := by
  obtain ⟨part, rest, rfl, htight, hstop, hread⟩ := hfirst
  have hfold := foldWithin_readsPart hnext hframed h result.2.tokens.length part rest result.2
    (Nat.le_refl _) hread.tokens hsize htight (by rwa [hread.tokens]) hafter
  obtain ⟨part', rest', hs, htight', hends, hreads⟩ := hfold
  rw [hread.expr]
  exact ⟨part', rest', hs, htight', hends, hreads.expr, hreads.tokens,
    hread.quiet.trans hreads.quiet⟩

theorem termOf_readsParts (hframed : factor.Framed) (h : ReadsFactors size factor) :
    ReadsParts .product (some .product) size (termOf none factor) := by
  have hpower := powerOf_readsParts h
  have hpowerFramed := powerOf_framed none hframed
  have hnext : Level.operand .product = some .power := rfl
  intro c s after htokens hsize hafter
  have hfirst : ReadsPart .product (some .power) c s after (powerOf none factor c) := by
    obtain ⟨part, rest, hs, htight, hstop, hread⟩ := hpower c s after htokens hsize hafter
    have hreading : part.exprs.reading .product = part.exprs.reading .power :=
      product_eq_power (htight.exprs.splitLast?_eq_none hnext)
    rw [← hreading] at hread
    exact ⟨part, rest, hs, htight.of_operand hnext, hstop, hread⟩
  have hlength := (hpowerFramed.reaches c).length_le
  exact fold_readsPart hnext hpowerFramed hpower hfirst (Nat.le_trans hlength hsize) hafter

theorem peekSign?_of_operand {a : Operand} {rest : List Token}
    (h : c.tokens = a.tokens ++ rest) : peekSign? c = none := by
  obtain ⟨token, tokens', ha, hstart⟩ := a.tokens_startsFactor
  rw [ha] at h
  cases token <;> simp_all [peekSign?, Cursor.peekOperator?, Token.startsFactor]

theorem peekSign?_of_chain (htokens : c.tokens = s.tokens ++ after)
    (hunsigned : ∀ sign rest, s ≠ signed sign rest) : peekSign? c = none := by
  cases s with
  | last a => exact peekSign?_of_operand htokens
  | signed sign rest => exact absurd rfl (hunsigned sign rest)
  | link a op rest =>
    rw [Chain.tokens, List.append_assoc] at htokens
    exact peekSign?_of_operand htokens

theorem leadingTerm_readsParts (hframed : factor.Framed) (h : ReadsFactors size factor) :
    ReadsParts .sum (some .product) size (leadingTerm none factor) := by
  have hterm := termOf_readsParts hframed h
  have hnext : Level.operand .sum = some .product := rfl
  intro c s after htokens hsize hafter
  unfold leadingTerm
  by_cases hsigned : ∃ sign rest, s = signed sign rest
  · obtain ⟨sign, s, rfl⟩ := hsigned
    have hlength : c.advance.tokens.length ≤ size := by
      rw [Cursor.advance_tokens, List.length_tail]
      omega
    obtain ⟨part, rest, rfl, htight, hstop, hread⟩ :=
      hterm c.advance s after (by simp [htokens, Chain.tokens]) hlength hafter
    have htight' : (signed sign part).Tight .product := htight
    have hreading : (signed sign part).exprs.reading .sum = .signed sign part.exprs.product :=
      sum_eq_leadingProduct (htight'.exprs.splitLast?_eq_none hnext)
    rw [peekSign?_of_sign htokens]
    refine ⟨signed sign part, rest, (signed_followed sign part rest).symm,
      htight'.of_operand hnext, hstop, ?_, hread.tokens, c.quiet_advance.trans hread.quiet⟩
    simp only [hread.expr, hreading]
    rfl
  · have hunsigned (sign : Sign) (rest : Chain Operand) : s ≠ signed sign rest :=
      fun hs => hsigned ⟨sign, rest, hs⟩
    obtain ⟨part, rest, rfl, htight, hstop, hread⟩ := hterm c s after htokens hsize hafter
    have hreading : part.exprs.reading .sum = part.exprs.reading .product :=
      (sum_eq_leadingProduct (htight.exprs.splitLast?_eq_none hnext)).trans
        (leadingProduct_exprs_of_followed hunsigned)
    rw [peekSign?_of_chain htokens hunsigned]
    rw [← hreading] at hread
    exact ⟨part, rest, rfl, htight.of_operand hnext, hstop, hread⟩

theorem expressionOf_readsAs (hframed : factor.Framed) (h : ReadsFactors size factor)
    (htokens : c.tokens = s.tokens ++ after) (hsize : c.tokens.length ≤ size)
    (hafter : StopsAt (some .sum) after) :
    ReadsAs c s.exprs.sum after (expressionOf none factor c) := by
  have hfirst := leadingTerm_readsParts hframed h c s after htokens hsize hafter
  have hterm := termOf_readsParts hframed h
  have hlength := ((leadingTerm_framed none hframed).reaches c).length_le
  rw [expressionOf_eq]
  exact (fold_readsPart rfl (termOf_framed none hframed) hterm hfirst
    (Nat.le_trans hlength hsize) hafter).readsAs

theorem factorWithin_readsFactors (size : Nat) : ReadsFactors size (factorWithin none size) := by
  induction size with
  | zero =>
    constructor
    · intro c a rest htokens hsize
      exact absurd hsize (Nat.not_le_of_lt (length_pos_of_append a.tokens_ne_nil htokens))
    · intro c sign s after htokens hsize
      rw [htokens] at hsize
      exact absurd hsize (Nat.not_succ_le_zero _)
  | succ size ih =>
    have hframed := factorWithin_framed none size
    constructor
    · intro c a rest htokens hsize
      have hlength : c.tokens.tail.length ≤ size := by
        rw [List.length_tail]
        omega
      cases a with
      | number value =>
        simp only [factorWithin, htokens, Operand.tokens, List.cons_append]
        exact ⟨rfl, by simp [htokens, Operand.tokens],
          c.quiet_advance.trans (Cursor.quiet_note _ _)⟩
      | letter v =>
        simp only [factorWithin, htokens, Operand.tokens, List.cons_append]
        exact ⟨rfl, by simp [htokens, Operand.tokens],
          c.quiet_advance.trans (Cursor.quiet_note _ _)⟩
      | group b content =>
        simp only [Operand.tokens, List.cons_append, List.append_assoc, List.nil_append] at htokens
        have hclosing : StopsAt (some .sum) (b.closing :: rest) := by cases b <;> trivial
        have hgroup : ReadsUnless False c (b.wrap content.exprs.sum) rest
            (factorWithin none (size + 1) c) := by
          apply factorWithin_group_readsUnless b.closing htokens (hasRoom_none _) fun h => h rfl
          intro c' htokens' _
          rw [htokens, List.tail_cons, ← htokens'] at hlength
          exact .inl (expressionOf_readsAs hframed ih htokens' hlength hclosing)
        exact hgroup.resolve_right fun h => h.1
      | call f argument =>
        rw [Operand.tokens, List.cons_append] at htokens
        have hcall : ReadsUnless False c (.call f argument.expr) rest
            (factorWithin none (size + 1) c) := by
          apply factorWithin_call_readsUnless htokens (hasRoom_none _)
          intro c' htokens' _
          rw [htokens, List.tail_cons, ← htokens'] at hlength
          exact .inl (ih.operand c' argument rest htokens' hlength)
        exact hcall.resolve_right fun h => h.1
    · intro c sign s after htokens hsize hafter
      have hlength : c.advance.tokens.length ≤ size := by
        rw [Cursor.advance_tokens, List.length_tail]
        omega
      have hnext : c.advance.tokens = s.tokens ++ after := by simp [htokens]
      obtain ⟨part, rest, rfl, htight, hstop, hread⟩ :=
        powerOf_readsParts ih c.advance.descend s after hnext hlength hafter
      have hnested := Production.nested_readsAs (hasRoom_none _) hread
      simp only [factorWithin, htokens, Operator.sign?_operator]
      refine ⟨signed sign part, rest, (signed_followed sign part rest).symm, htight, hstop, ?_,
        hnested.tokens, c.quiet_advance.trans hnested.quiet⟩
      simp only [hnested.expr]
      rfl

theorem run_none_readsAs (s : Chain Operand) :
    ReadsAs { tokens := s.tokens } s.exprs.sum [] (Grammar.chained.run none s.tokens) := by
  have hframed := factorWithin_framed none s.tokens.length
  exact expressionOf_readsAs hframed (factorWithin_readsFactors _) (List.append_nil _).symm
    (Nat.le_refl _) (stopsAt_nil _)

/-- Chains that are not too deep are read whole, by the precedence of their operators and with
nothing to report. -/
theorem read_chain (s : Chain Operand) (hdeep : (Grammar.chained.read s.tokens).tooDeep = false) :
    Grammar.chained.read s.tokens =
      { expr := s.exprs.sum, unconsumed := [], unclosed := 0, tooDeep := false, displaced := [] } :=
  Grammar.read_eq_of_readsAs (run_none_readsAs s) hdeep

theorem read_chain_signs_at_every_level :
    let distance : Operand := .group .bar (link (.letter .x) .subtract (last (.letter .y)))
    let products : Chain Operand := link distance .multiply
      (link (.call .sine (.letter .z)) .remainder (signed .plus (last (.number 2))))
    let s : Chain Operand := signed .minus (link (.letter .x) .power (signed .minus
      (link (.letter .y) .subtract products)))
    let e : Expr := .binary .subtract
      (.signed .minus (.binary .power (.letter .x) (.signed .minus (.letter .y))))
      (.binary .remainder
        (.binary .multiply (.absolute (.binary .subtract (.letter .x) (.letter .y)))
          (.call .sine (.letter .z)))
        (.signed .plus (.number 2)))
    (Grammar.chained.read s.tokens).tooDeep = false ∧ s.exprs.sum = e ∧
      Grammar.chained.read s.tokens =
        { expr := s.exprs.sum, unconsumed := [], unclosed := 0, tooDeep := false,
          displaced := [] } := by
  intro distance products s e
  have hdeep : (Grammar.chained.read s.tokens).tooDeep = false := by decide +kernel
  have hexpr : (Grammar.chained.read s.tokens).expr = e := by decide +kernel
  have hread := read_chain s hdeep
  rw [hread] at hexpr
  exact ⟨hdeep, hexpr, hread⟩

end Formula.Chained
