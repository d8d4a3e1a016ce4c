import Formula.Proofs.Grammar.Limit
import Formula.Proofs.Phrase.Basic

/-!
# Readings without a report

`ReadsAs` is the outcome that a reader is meant to have: the expression, the tokens that are
left, and nothing to report. The other definitions say when a reader can have it.
-/

set_option autoImplicit false

namespace Formula

namespace Cursor

/-- The second cursor is as deep as the first one and has nothing more to report. -/
structure Quiet (c c' : Cursor) : Prop where
  depth : c'.depth = c.depth
  tooDeep : c'.tooDeep = c.tooDeep
  unclosed : c'.unclosed = c.unclosed
  displaced : c'.displaced = c.displaced

namespace Quiet

theorem refl (c : Cursor) : c.Quiet c :=
  ⟨rfl, rfl, rfl, rfl⟩

theorem trans {a b c : Cursor} (hab : a.Quiet b) (hbc : b.Quiet c) : a.Quiet c :=
  ⟨hbc.depth.trans hab.depth, hbc.tooDeep.trans hab.tooDeep, hbc.unclosed.trans hab.unclosed,
    hbc.displaced.trans hab.displaced⟩

theorem descend {c c' : Cursor} (h : c.Quiet c') : c.descend.Quiet c'.descend :=
  ⟨congrArg (· + 1) h.depth, h.tooDeep, h.unclosed, h.displaced⟩

end Quiet

theorem quiet_advance (c : Cursor) : c.Quiet c.advance :=
  ⟨rfl, rfl, rfl, rfl⟩

theorem quiet_note (c : Cursor) (step : Step) : c.Quiet (c.note step) :=
  ⟨rfl, rfl, rfl, rfl⟩

/-- Giving the depth back makes a link of a chain quiet. -/
theorem quiet_withDepth {c c' : Cursor} {depth : Nat} (h : c.descend.Quiet c')
    (hdepth : depth = c.depth) : c.Quiet { c' with depth } :=
  ⟨hdepth, h.tooDeep, h.unclosed, h.displaced⟩

theorem quiet_link {c c' : Cursor} (h : c.Quiet c') : c.descend.Quiet c'.advance.descend :=
  (h.trans c'.quiet_advance).descend

end Cursor

/-- The result is the expression, with the given tokens left and nothing to report. -/
structure ReadsAs (c : Cursor) (e : Expr) (rest : List Token) (result : Expr × Cursor) : Prop where
  expr : result.1 = e
  tokens : result.2.tokens = rest
  quiet : c.Quiet result.2

def HasRoom (limit : Option Nat) (depth : Nat) : Prop :=
  ∀ most ∈ limit, depth ≤ most

theorem hasRoom_none (depth : Nat) : HasRoom none depth := by
  intro most h
  cases h

theorem HasRoom.of_le {limit : Option Nat} {depth depth' : Nat} (h : HasRoom limit depth)
    (hle : depth' ≤ depth) : HasRoom limit depth' :=
  fun most hm => Nat.le_trans hle (h most hm)

theorem hasRoom_twice {height : Nat} (h : height ≤ deepestNesting / 2) :
    HasRoom (some deepestNesting) (2 * height) := by
  intro most hmost
  obtain rfl : deepestNesting = most := Option.some.inj hmost
  omega

theorem Cursor.isFull_eq_false {c : Cursor} {limit : Option Nat} (h : HasRoom limit (c.depth + 1)) :
    c.isFull limit = false := by
  cases limit with
  | none => rfl
  | some most =>
    have hle : c.depth + 1 ≤ most := h most rfl
    simp only [isFull, Option.any_some, decide_eq_false_iff_not]
    omega

theorem Production.nested_readsAs {read : Production} {limit : Option Nat} {c : Cursor} {e : Expr}
    {rest : List Token} (hroom : HasRoom limit (c.depth + 1))
    (h : ReadsAs c.descend e rest (read c.descend)) : ReadsAs c e rest (read.nested limit c) := by
  unfold Production.nested
  rw [Cursor.isFull_eq_false hroom, if_neg Bool.false_ne_true]
  refine ⟨h.expr, h.tokens, ?_, h.quiet.tooDeep, h.quiet.unclosed, h.quiet.displaced⟩
  change (read c.descend).2.depth - 1 = c.depth
  rw [h.quiet.depth]
  rfl

/-- A phrase of the level ends before the tokens: no operator comes that could continue it. -/
def StopsAt : Option Level → List Token → Prop
  | some level, .operator op :: _ => op.level.strength < level.strength
  | _, _ => True

theorem stopsAt_nil (r : Option Level) : StopsAt r [] := by
  cases r <;> trivial

theorem stopsAt_operand_operator {level : Level} {op : Operator} (h : op.level = level)
    (rest : List Token) : StopsAt level.operand (.operator op :: rest) := by
  subst h
  cases hl : op.level <;> simp [Level.operand, StopsAt, hl, Level.strength]

theorem StopsAt.operand {level : Level} {rest : List Token} (h : StopsAt (some level) rest) :
    StopsAt level.operand rest := by
  rcases rest with _ | ⟨token, rest⟩
  · exact stopsAt_nil _
  · cases token with
    | operator op =>
      have hlt : op.level.strength < level.strength := h
      cases level <;> simp_all [Level.operand, StopsAt, Level.strength]
    | _ => cases level <;> trivial

theorem StopsAt.peekOperator? {level : Level} {c : Cursor} (h : StopsAt (some level) c.tokens) :
    c.peekOperator? level = none := by
  unfold Cursor.peekOperator?
  split
  · rename_i op rest ht
    rw [ht] at h
    have hlt : op.level.strength < level.strength := h
    rw [if_neg]
    intro heq
    rw [heq] at hlt
    exact Nat.lt_irrefl _ hlt
  · rfl

/-- A phrase that has not ended continues with an operator of its own level. -/
theorem StopsAt.of_peekOperator? {level : Level} {c : Cursor} (h : StopsAt level.operand c.tokens)
    (hpeek : c.peekOperator? level = none) : StopsAt (some level) c.tokens := by
  unfold Cursor.peekOperator? at hpeek
  split at hpeek
  · rename_i op rest ht
    rw [ht] at h ⊢
    have hne : op.level ≠ level := by
      intro heq
      simp [heq] at hpeek
    change op.level.strength < level.strength
    cases level <;> cases hl : op.level <;>
      simp_all [Level.operand, StopsAt, Level.strength]
  · rename_i ht
    rcases hc : c.tokens with _ | ⟨token, rest⟩
    · exact stopsAt_nil _
    · cases token with
      | operator op => exact absurd hc (ht op rest)
      | _ => trivial

theorem exists_size_eq_succ {c : Cursor} {token : Token} {rest : List Token} {size : Nat}
    (htokens : c.tokens = token :: rest) (hsize : c.tokens.length ≤ size) :
    ∃ size', size = size' + 1 ∧ rest.length ≤ size' := by
  rw [htokens, List.length_cons] at hsize
  exact ⟨size - 1, by omega, by omega⟩

theorem length_pos_of_append {c : Cursor} {first rest : List Token} (hne : first ≠ [])
    (htokens : c.tokens = first ++ rest) : 0 < c.tokens.length := by
  rw [htokens]
  exact List.length_pos_iff.mpr (List.append_ne_nil_of_left_ne_nil hne rest)

theorem Cursor.peekOperator?_eq {c : Cursor} {level : Level} {op : Operator} {rest : List Token}
    (h : op.level = level) (ht : c.tokens = .operator op :: rest) :
    c.peekOperator? level = some op := by
  simp [Cursor.peekOperator?, ht, h]

/-- A reading without a report, as far as the limit allows it. -/
theorem Grammar.read_eq_of_readsAs {grammar : Grammar} {tokens : List Token} {e : Expr}
    (h : ReadsAs { tokens } e [] (grammar.run none tokens))
    (hdeep : (grammar.read tokens).tooDeep = false) :
    grammar.read tokens =
      { expr := e, unconsumed := [], unclosed := 0, tooDeep := false, displaced := [] } := by
  rw [← grammar.run_eq_run_none (some deepestNesting) tokens hdeep] at h
  rw [Grammar.read, Grammar.readWithin, Reading.mk.injEq]
  exact ⟨h.expr, by simp [h.tokens], h.quiet.unclosed, h.quiet.tooDeep, h.quiet.displaced⟩

/-- With nothing unconsumed, only the end of the input is left. -/
theorem Grammar.eq_endOfInput_of_unconsumed {grammar : Grammar} {limit : Option Nat}
    {tokens : List Token} (h : (grammar.readWithin limit tokens).unconsumed = []) :
    ∀ token ∈ (grammar.run limit tokens).2.tokens, token = .endOfInput := by
  intro token htoken
  have hfilter := List.filter_eq_nil_iff.mp h token htoken
  rwa [decide_eq_true_iff, not_not] at hfilter

theorem Grammar.tokens_eq_nil_of_unconsumed {grammar : Grammar} {limit : Option Nat}
    {tokens : List Token} (hend : .endOfInput ∉ tokens)
    (h : (grammar.readWithin limit tokens).unconsumed = []) :
    (grammar.run limit tokens).2.tokens = [] := by
  apply List.eq_nil_iff_forall_not_mem.mpr
  intro token htoken
  have hmem := (grammar.run_reaches limit tokens).tokens.subset htoken
  exact hend (eq_endOfInput_of_unconsumed h token htoken ▸ hmem)

theorem stopsAt_of_endOfInput (r : Option Level) {rest : List Token}
    (h : ∀ token ∈ rest, token = .endOfInput) : StopsAt r rest := by
  rcases rest with _ | ⟨token, rest⟩
  · exact stopsAt_nil r
  · obtain rfl := h token List.mem_cons_self
    cases r <;> trivial

end Formula
