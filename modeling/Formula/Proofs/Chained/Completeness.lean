import Formula.Proofs.Chained.Language
import Formula.Proofs.Grammar.Limit
import Formula.Proofs.Grammar.Outcome

/-!
# Chains read every word of their language

A word can have several derivations, and the reader finds one of its own. So the words are first
flattened: a word is an operand, and then operators of any level with an operand each. Wherever
the reader stops, it has read such a row up to an operator.
-/

set_option autoImplicit false

namespace Formula.Chained

inductive Stretch where
  | operand
  | links

inductive Flat : Stretch → List Token → Prop where
  | number (value : Float) : Flat .operand [.number value]
  | letter (v : Letter) : Flat .operand [.letter v]
  | paren {first rest : List Token} (hfirst : Flat .operand first) (hrest : Flat .links rest) :
      Flat .operand (.openParen :: (first ++ (rest ++ [.closeParen])))
  | bar {first rest : List Token} (hfirst : Flat .operand first) (hrest : Flat .links rest) :
      Flat .operand (.bar :: (first ++ (rest ++ [.bar])))
  | call (f : Elementary) {argument : List Token} (hargument : Flat .operand argument) :
      Flat .operand (.function f :: argument)
  | signed (sign : Sign) {operand : List Token} (hoperand : Flat .operand operand) :
      Flat .operand (.operator sign.operator :: operand)
  | noLink : Flat .links []
  | link (op : Operator) {operand rest : List Token} (hoperand : Flat .operand operand)
      (hrest : Flat .links rest) : Flat .links (.operator op :: (operand ++ rest))

theorem Flat.append {s : Stretch} {left right : List Token} (hleft : Flat s left)
    (hs : s = .links) (hright : Flat .links right) : Flat .links (left ++ right) := by
  induction hleft with
  | noLink => exact hright
  | link op hoperand _ _ ih =>
    rw [List.cons_append, List.append_assoc]
    exact .link op hoperand (ih rfl)
  | _ => cases hs

def IsRow (tokens : List Token) : Prop :=
  ∃ first rest, tokens = first ++ rest ∧ Flat .operand first ∧ Flat .links rest

theorem Flat.isRow {first : List Token} (h : Flat .operand first) : IsRow first :=
  ⟨first, [], (List.append_nil _).symm, h, .noLink⟩

theorem IsRow.append {row rest : List Token} (hrow : IsRow row) (hrest : Flat .links rest) :
    IsRow (row ++ rest) := by
  obtain ⟨first, links, rfl, hfirst, hlinks⟩ := hrow
  exact ⟨first, links ++ rest, List.append_assoc _ _ _, hfirst, hlinks.append rfl hrest⟩

theorem IsRow.signed {row : List Token} (h : IsRow row) (sign : Sign) :
    IsRow (.operator sign.operator :: row) := by
  obtain ⟨first, links, rfl, hfirst, hlinks⟩ := h
  exact ⟨_, links, rfl, .signed sign hfirst, hlinks⟩

theorem IsRow.link {row rest : List Token} (h : IsRow row) (op : Operator)
    (hrest : Flat .links rest) : Flat .links (.operator op :: (row ++ rest)) := by
  obtain ⟨first, links, rfl, hfirst, hlinks⟩ := h
  rw [List.append_assoc]
  exact .link op hfirst (hlinks.append rfl hrest)

def Nonterminal.IsFlat : Nonterminal → List Token → Prop
  | links _ => Flat .links
  | _ => IsRow

theorem Derives.isFlat {n : Nonterminal} {tokens : List Token} (h : Derives n tokens) :
    n.IsFlat tokens := by
  induction h with
  | expression _ _ hfirst hrest => exact IsRow.append hfirst hrest
  | signedExpression sign _ _ hfirst hrest =>
    exact IsRow.append (IsRow.signed hfirst sign) hrest
  | term _ _ hfirst hrest => exact IsRow.append hfirst hrest
  | noLink => exact .noLink
  | @link level op _ operand _ _ _ hoperand hrest =>
    have hrow : IsRow operand := by cases level <;> exact hoperand
    exact hrow.link op hrest
  | base _ hbase => exact hbase
  | raised _ _ hbase hexponent =>
    -- In a row, the exponent is one more link, and its own links follow it.
    have hlinks : Flat .links _ := IsRow.link hexponent .power .noLink
    rw [List.append_nil] at hlinks
    exact IsRow.append hbase hlinks
  | number value => exact (Flat.number value).isRow
  | letter v => exact (Flat.letter v).isRow
  | paren _ hinner =>
    obtain ⟨first, links, rfl, hfirst, hlinks⟩ := hinner
    rw [List.append_assoc]
    exact (Flat.paren hfirst hlinks).isRow
  | call f _ hargument =>
    obtain ⟨first, links, rfl, hfirst, hlinks⟩ := hargument
    exact ⟨_, links, rfl, .call f hfirst, hlinks⟩
  | bar _ hinner =>
    obtain ⟨first, links, rfl, hfirst, hlinks⟩ := hinner
    rw [List.append_assoc]
    exact (Flat.bar hfirst hlinks).isRow
  | signedPower sign _ hoperand => exact IsRow.signed hoperand sign

theorem Flat.of_operator {op : Operator} {tail : List Token}
    (h : Flat .operand (.operator op :: tail)) : Flat .operand tail := by
  cases h with
  | signed sign hoperand => exact hoperand

theorem Flat.ne_nil {first : List Token} (h : Flat .operand first) : first ≠ [] := by
  cases h <;> exact List.cons_ne_nil _ _

/-- Links start with an operator, so nothing of them is before a token that is none. -/
theorem Flat.eq_nil_of_stopsAt {rest after : List Token} (h : Flat .links rest)
    (hstop : StopsAt (some .sum) (rest ++ after)) : rest = [] := by
  cases h with
  | noLink => rfl
  | link op hoperand hrest => exact absurd hstop (Nat.not_lt_zero _)

/-- From a row before the given tokens, the result has used operands up to a token at which a
phrase of the level stops, and has nothing to report. -/
structure ReadsRow (r : Option Level) (c : Cursor) (after : List Token)
    (result : Expr × Cursor) : Prop where
  links : ∃ rest, Flat .links rest ∧ result.2.tokens = rest ++ after
  stops : StopsAt r result.2.tokens
  hasMissing : result.1.hasMissing = false
  unclosed : result.2.unclosed = c.unclosed

/-- From every row of at most so many tokens, the production reads up to where it should. -/
def Complete (r : Option Level) (size : Nat) (p : Production) : Prop :=
  ∀ (c : Cursor) (first rest after : List Token), Flat .operand first → Flat .links rest →
    c.tokens = first ++ (rest ++ after) → c.tokens.length ≤ size → StopsAt (some .sum) after →
    ReadsRow r c after (p c)

variable {size : Nat} {r : Option Level} {p factor operand : Production} {c : Cursor}
variable {after : List Token}

theorem Complete.nested (h : Complete r size p) : Complete r size (p.nested none) := by
  intro c first rest after hfirst hrest htokens hsize hafter
  have hread := h c.descend first rest after hfirst hrest htokens hsize hafter
  exact ⟨hread.links, hread.stops, hread.hasMissing, hread.unclosed⟩

theorem ReadsRow.tokens_eq {result : Expr × Cursor} (h : ReadsRow (some .sum) c after result) :
    result.2.tokens = after := by
  obtain ⟨rest, hrest, htokens⟩ := h.links
  have hstop := h.stops
  rw [htokens] at hstop
  rw [htokens, hrest.eq_nil_of_stopsAt hstop, List.nil_append]

/-- An operator that comes next is the first of the links, so its operand comes after it. -/
theorem operand_of_peekOperator? {level : Level} {op : Operator} {rest : List Token}
    (hrest : Flat .links rest) (hafter : StopsAt (some .sum) after)
    (htokens : c.tokens = rest ++ after) (hpeek : c.peekOperator? level = some op) :
    ∃ first rest', Flat .operand first ∧ Flat .links rest' ∧
      c.tokens.tail = first ++ (rest' ++ after) := by
  obtain ⟨_, hhead⟩ := Cursor.peekOperator?_eq_some hpeek
  cases hrest with
  | noLink =>
    rw [List.nil_append] at htokens
    rw [← htokens, hhead] at hafter
    exact absurd hafter (Nat.not_lt_zero _)
  | link op' hoperand hlinks =>
    exact ⟨_, _, hoperand, hlinks, by rw [htokens]; simp⟩

theorem powerWithin_complete (hframed : factor.Framed) (h : Complete none size factor)
    (fuel : Nat) (c : Cursor) (hfuel : c.tokens.length ≤ fuel) (first rest after : List Token)
    (hfirst : Flat .operand first) (hrest : Flat .links rest)
    (htokens : c.tokens = first ++ (rest ++ after)) (hsize : c.tokens.length ≤ size)
    (hafter : StopsAt (some .sum) after) :
    ReadsRow (some .power) c after (powerWithin none factor fuel c) := by
  induction fuel generalizing c first rest with
  | zero =>
    exact absurd hfuel (Nat.not_le_of_lt (length_pos_of_append hfirst.ne_nil htokens))
  | succ fuel ih =>
    have hbase := h c first rest after hfirst hrest htokens hsize hafter
    rw [powerWithin_succ]
    rcases (factor c).2.takeFold_none_cases .power with ⟨hpeek, ht⟩ | ⟨op, hpeek, ht⟩
    · simp only [ht]
      exact ⟨hbase.links, StopsAt.of_peekOperator? hbase.stops hpeek, hbase.hasMissing,
        hbase.unclosed⟩
    · simp only [ht]
      obtain ⟨links, hlinks, hleft⟩ := hbase.links
      obtain ⟨first', rest', hfirst', hrest', htail⟩ :=
        operand_of_peekOperator? hlinks hafter hleft hpeek
      have hlength := (hframed.reaches c).length_le
      have hshorter := congrArg List.length (Cursor.peekOperator?_eq_some hpeek).2
      rw [List.length_cons] at hshorter
      have hexponent := ih (factor c).2.advance.descend (by simp; omega) first' rest' hfirst'
        hrest' htail (by simp; omega)
      exact ⟨hexponent.links, hexponent.stops,
        by simp [Expr.hasMissing, hbase.hasMissing, hexponent.hasMissing],
        hexponent.unclosed.trans hbase.unclosed⟩

theorem powerOf_complete (hframed : factor.Framed) (h : Complete none size factor) :
    Complete (some .power) size (powerOf none factor) :=
  fun c => powerWithin_complete hframed h c.tokens.length c (Nat.le_refl _)

theorem foldWithin_complete {level : Level} (hframed : operand.Framed)
    (h : Complete level.operand size operand) (fuel : Nat) (left : Expr) (c : Cursor)
    (hfuel : c.tokens.length ≤ fuel) (rest after : List Token) (hrest : Flat .links rest)
    (htokens : c.tokens = rest ++ after) (hstop : StopsAt level.operand c.tokens)
    (hsize : c.tokens.length ≤ size) (hafter : StopsAt (some .sum) after)
    (hleft : left.hasMissing = false) :
    ReadsRow (some level) c after (foldWithin none level operand fuel left c) := by
  induction fuel generalizing left c rest with
  | zero =>
    have hnil : c.tokens = [] := List.length_eq_zero_iff.mp (Nat.le_zero.mp hfuel)
    refine ⟨⟨rest, hrest, htokens⟩, ?_, hleft, rfl⟩
    rw [foldWithin, hnil]
    exact stopsAt_nil _
  | succ fuel ih =>
    rw [foldWithin_succ]
    rcases c.takeFold_none_cases level with ⟨hpeek, ht⟩ | ⟨op, hpeek, ht⟩
    · simp only [ht]
      exact ⟨⟨rest, hrest, htokens⟩, hstop.of_peekOperator? hpeek, hleft, rfl⟩
    · simp only [ht]
      obtain ⟨first, rest', hfirst, hrest', htail⟩ :=
        operand_of_peekOperator? hrest hafter htokens hpeek
      have hshorter := congrArg List.length (Cursor.peekOperator?_eq_some hpeek).2
      rw [List.length_cons] at hshorter
      have hoperand := h c.advance.descend first rest' after hfirst hrest' htail
        (by simp; omega) hafter
      obtain ⟨links, hlinks, htokens'⟩ := hoperand.links
      have hlength := (hframed.reaches c.advance.descend).length_le
      simp only [Cursor.descend_tokens, Cursor.advance_tokens] at hlength
      have hnext := ih (.binary op left (operand c.advance.descend).1) _ (by omega) links hlinks
        htokens' hoperand.stops (by omega)
        (by simp [Expr.hasMissing, hleft, hoperand.hasMissing])
      exact ⟨hnext.links, hnext.stops, hnext.hasMissing,
        hnext.unclosed.trans hoperand.unclosed⟩

theorem fold_complete {level : Level} (hframed : operand.Framed)
    (h : Complete level.operand size operand) {start : Cursor} {first : Expr × Cursor}
    (hfirst : ReadsRow level.operand start after first)
    (hsize : first.2.tokens.length ≤ size) (hafter : StopsAt (some .sum) after) :
    ReadsRow (some level) start after (fold none level operand first.1 first.2) := by
  obtain ⟨rest, hrest, htokens⟩ := hfirst.links
  have hread := foldWithin_complete hframed h first.2.tokens.length first.1 first.2
    (Nat.le_refl _) rest after hrest htokens hfirst.stops hsize hafter hfirst.hasMissing
  exact ⟨hread.links, hread.stops, hread.hasMissing, hread.unclosed.trans hfirst.unclosed⟩

theorem termOf_complete (hframed : factor.Framed) (h : Complete none size factor) :
    Complete (some .product) size (termOf none factor) := by
  have hpowerFramed := powerOf_framed none hframed
  have hpower : Complete (Level.operand .product) size (powerOf none factor) :=
    powerOf_complete hframed h
  intro c first rest after hfirst hrest htokens hsize hafter
  have hread := hpower c first rest after hfirst hrest htokens hsize hafter
  have hlength := (hpowerFramed.reaches c).length_le
  exact fold_complete hpowerFramed hpower hread (Nat.le_trans hlength hsize) hafter

theorem leadingTerm_complete (hframed : factor.Framed) (h : Complete none size factor) :
    Complete (some .product) size (leadingTerm none factor) := by
  have hterm := termOf_complete hframed h
  intro c first rest after hfirst hrest htokens hsize hafter
  unfold leadingTerm
  cases hsign : peekSign? c with
  | some sign =>
    have htail := tokens_of_peekSign? hsign
    have hlength := congrArg List.length htail
    rw [List.length_cons] at hlength
    obtain ⟨token, operand, rfl⟩ := List.exists_cons_of_ne_nil hfirst.ne_nil
    rw [htokens, List.cons_append, List.tail_cons, List.cons.injEq] at htail
    obtain ⟨rfl, -⟩ := htail
    have hread := hterm c.advance operand rest after hfirst.of_operator hrest
      (by simp [htokens]) (by simp; omega) hafter
    exact ⟨hread.links, hread.stops, hread.hasMissing, hread.unclosed⟩
  | none => exact hterm c first rest after hfirst hrest htokens hsize hafter

theorem expressionOf_complete (hframed : factor.Framed) (h : Complete none size factor) :
    Complete (some .sum) size (expressionOf none factor) := by
  have hleading : Complete (Level.operand .sum) size (leadingTerm none factor) :=
    leadingTerm_complete hframed h
  have hterm : Complete (Level.operand .sum) size (termOf none factor) :=
    termOf_complete hframed h
  intro c first rest after hfirst hrest htokens hsize hafter
  have hread := hleading c first rest after hfirst hrest htokens hsize hafter
  have hlength := ((leadingTerm_framed none hframed).reaches c).length_le
  rw [expressionOf_eq]
  exact fold_complete (termOf_framed none hframed) hterm hread (Nat.le_trans hlength hsize) hafter

/-- A group ends at its closing token, which is no operator. -/
theorem Complete.closed {group : Production} (h : Complete (some .sum) size group)
    {closing : Token} (hclosing : StopsAt (some .sum) (closing :: after)) {first rest : List Token}
    (hfirst : Flat .operand first) (hrest : Flat .links rest)
    (htokens : c.tokens = first ++ (rest ++ closing :: after)) (hsize : c.tokens.length ≤ size) :
    (group c).1.hasMissing = false ∧ (close closing (group c).2).tokens = after ∧
      (close closing (group c).2).unclosed = c.unclosed := by
  have hread := h c first rest (closing :: after) hfirst hrest htokens hsize hclosing
  rw [close_of_tokens hread.tokens_eq]
  exact ⟨hread.hasMissing, by simp [hread.tokens_eq], hread.unclosed⟩

theorem factorWithin_complete (size : Nat) :
    Complete none size (factorWithin none size) := by
  induction size with
  | zero =>
    intro c first rest after hfirst _ htokens hsize _
    exact absurd hsize (Nat.not_le_of_lt (length_pos_of_append hfirst.ne_nil htokens))
  | succ size ih =>
    have hframed := factorWithin_framed none size
    have hgroup := (expressionOf_complete hframed ih).nested
    have hpower := (powerOf_complete hframed ih).nested
    have hcall := ih.nested
    intro c first rest after hfirst hrest htokens hsize hafter
    have hlength : c.tokens.tail.length ≤ size := by
      rw [List.length_tail]
      omega
    cases hfirst with
    | number value =>
      simp only [factorWithin, htokens, List.cons_append, List.nil_append]
      exact ⟨⟨rest, hrest, by simp [htokens]⟩, trivial, rfl, rfl⟩
    | letter v =>
      simp only [factorWithin, htokens, List.cons_append, List.nil_append]
      exact ⟨⟨rest, hrest, by simp [htokens]⟩, trivial, rfl, rfl⟩
    | paren hfirst hlinks =>
      simp only [List.cons_append, List.append_assoc, List.nil_append] at htokens
      have hstop : StopsAt (some .sum) (.closeParen :: (rest ++ after)) := trivial
      have hread := hgroup.closed (c := c.advance.note (.factor .openParen)) hstop hfirst hlinks
        (by simp [htokens]) hlength
      simp only [factorWithin, htokens]
      exact ⟨⟨rest, hrest, hread.2.1⟩, trivial, hread.1, hread.2.2⟩
    | bar hfirst hlinks =>
      simp only [List.cons_append, List.append_assoc, List.nil_append] at htokens
      have hstop : StopsAt (some .sum) (.bar :: (rest ++ after)) := trivial
      have hread := hgroup.closed (c := c.advance.note (.factor .bar)) hstop hfirst hlinks
        (by simp [htokens]) hlength
      simp only [factorWithin, htokens]
      exact ⟨⟨rest, hrest, hread.2.1⟩, trivial, hread.1, hread.2.2⟩
    | call f hargument =>
      rw [List.cons_append] at htokens
      have hread := hcall (c.advance.note (.factor (.function f))) _ rest after hargument hrest
        (by simp [htokens]) hlength hafter
      simp only [factorWithin, htokens]
      exact ⟨hread.links, trivial, hread.hasMissing, hread.unclosed⟩
    | signed sign hoperand =>
      rw [List.cons_append] at htokens
      have hread := hpower c.advance _ rest after hoperand hrest (by simp [htokens])
        hlength hafter
      simp only [factorWithin, htokens, Operator.sign?_operator]
      exact ⟨hread.links, trivial, hread.hasMissing, hread.unclosed⟩

theorem run_none_complete {tokens : List Token} (h : Derives .expression tokens) :
    ReadsRow (some .sum) { tokens } [] (Grammar.chained.run none tokens) := by
  obtain ⟨first, rest, htokens, hfirst, hrest⟩ : IsRow tokens := h.isFlat
  have hframed := factorWithin_framed none tokens.length
  exact expressionOf_complete hframed (factorWithin_complete _) _ first rest [] hfirst hrest
    (by simpa using htokens) (Nat.le_refl _) (stopsAt_nil _)

/-- Chains that are not too deep are read whole and without a missing operand if and only if they
are expressions of the language. -/
theorem read_whole_iff_derives (tokens : List Token) (hend : .endOfInput ∉ tokens)
    (hdeep : (Grammar.chained.read tokens).tooDeep = false) :
    ((Grammar.chained.read tokens).unconsumed = [] ∧ (Grammar.chained.read tokens).unclosed = 0 ∧
      (Grammar.chained.read tokens).expr.hasMissing = false) ↔ Derives .expression tokens := by
  constructor
  · rintro ⟨hunconsumed, hunclosed, hmissing⟩
    obtain ⟨used, htokens, hderives⟩ := expression_sound (some deepestNesting) { tokens } hmissing
      hunclosed
    change tokens = used ++ (Grammar.chained.run (some deepestNesting) tokens).2.tokens at htokens
    have hrest : (Grammar.chained.run (some deepestNesting) tokens).2.tokens = [] := by
      apply List.eq_nil_iff_forall_not_mem.mpr
      intro token htoken
      have hmem : token ∈ tokens := by
        rw [htokens]
        exact List.mem_append_right _ htoken
      exact hend (Grammar.eq_endOfInput_of_unconsumed hunconsumed token htoken ▸ hmem)
    rw [hrest, List.append_nil] at htokens
    rwa [htokens]
  · intro hderives
    have hread := run_none_complete hderives
    rw [← Grammar.run_eq_run_none .chained (some deepestNesting) tokens hdeep] at hread
    refine ⟨?_, hread.unclosed, hread.hasMissing⟩
    simp [Grammar.read, Grammar.readWithin, hread.tokens_eq]

theorem read_whole_iff_derives_signed_power :
    let tokens : List Token :=
      [.operator .subtract, .letter .x, .operator .power, .operator .add, .bar, .letter .y, .bar]
    .endOfInput ∉ tokens ∧ (Grammar.chained.read tokens).tooDeep = false ∧
      Derives .expression tokens := by
  intro tokens
  have hend : .endOfInput ∉ tokens := by decide
  have hdeep : (Grammar.chained.read tokens).tooDeep = false := rfl
  exact ⟨hend, hdeep, (read_whole_iff_derives tokens hend hdeep).mp ⟨rfl, rfl, rfl⟩⟩

end Formula.Chained
