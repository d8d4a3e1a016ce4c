import Formula.Proofs.Single.Trace

/-!
# The shape of what single operators read

A sum has a left operand that was decided not to be displaced by its operator: a value or a call.
That holds at every depth, also in the operations that are displaced.
-/

set_option autoImplicit false

namespace Formula

namespace Expr

/-- The tree is a number, a letter or a call. -/
inductive Primary : Expr → Prop where
  | number (value : Float) : Primary (.number value)
  | letter (v : Letter) : Primary (.letter v)
  | call (f : Elementary) (argument : Expr) : Primary (.call f argument)

/-- The first tree stands at some depth of the second one. -/
inductive Subtree (e : Expr) : Expr → Prop where
  | whole : Subtree e e
  | left (op : Operator) {left : Expr} (right : Expr) (h : Subtree e left) :
      Subtree e (.binary op left right)
  | right (op : Operator) (left : Expr) {right : Expr} (h : Subtree e right) :
      Subtree e (.binary op left right)
  | signed (sign : Sign) {operand : Expr} (h : Subtree e operand) : Subtree e (.signed sign operand)
  | absolute {operand : Expr} (h : Subtree e operand) : Subtree e (.absolute operand)
  | call (f : Elementary) {argument : Expr} (h : Subtree e argument) : Subtree e (.call f argument)

theorem primary_iff {e : Expr} :
    e.Primary ↔ e.isMissing = false ∧ e.isOperation = false := by
  constructor
  · rintro (_ | _ | _) <;> exact ⟨rfl, rfl⟩
  · rintro ⟨hmissing, hoperation⟩
    cases e with
    | number value => exact .number value
    | letter v => exact .letter v
    | call f argument => exact .call f argument
    | missing => cases hmissing
    | binary | signed | absolute => cases hoperation

/-- Sums that are decided are so at every depth. -/
theorem SumsDecided.primary_left {e : Expr} (h : e.SumsDecided) {op : Operator}
    {left right : Expr} (hsub : Subtree (.binary op left right) e) (hop : op.level = .sum) :
    left.Primary := by
  induction hsub with
  | whole => exact primary_iff.mpr (h.1 hop)
  | left op' right' _ ih => exact ih h.2.1
  | right op' left' _ ih => exact ih h.2.2
  | signed sign _ ih => exact ih h
  | absolute _ ih => exact ih h
  | call f _ ih => exact ih h

end Expr

namespace Phrase

variable {r : Option Level}

/-- Only an operation is displaced, and its own sums are decided. -/
theorem sumsDecided_of_mem_displaced {p : Phrase r} (h : p.Decided) {e : Expr}
    (he : e ∈ p.displaced) : e.SumsDecided ∧ e.isOperation = true := by
  induction p with
  | missing | number | letter => cases he
  | call f argument ih => exact ih h he
  | group b inner closer ih => exact ih h he
  | alone level operand ih => exact ih h he
  | joined level op hop left right ihl ihr =>
    rcases List.mem_append.mp he with he | he
    · exact ihl h.2.1 he
    · exact ihr h.2.2 he
  | signed sign before operand ihb iho =>
    obtain ⟨hsign, hbefore, hoperand⟩ := h
    simp only [displaced, List.mem_append] at he
    rcases he with (he | he) | he
    · exact ihb hbefore he
    · split at he
      · cases he
      · rename_i hmissing
        obtain rfl := List.mem_singleton.mp he
        exact ⟨sumsDecided_expr hbefore, hsign.resolve_left hmissing⟩
    · exact iho hoperand he

end Phrase

namespace Single

theorem sumsDecided_read (tokens : List Token) :
    (Grammar.single.read tokens).expr.SumsDecided := by
  obtain ⟨p, _, hexpr, _, hdecided⟩ := exists_phrase_read tokens
  rw [hexpr]
  exact Phrase.sumsDecided_expr hdecided

theorem sumsDecided_of_mem_displaced_read {tokens : List Token} {e : Expr}
    (h : e ∈ (Grammar.single.read tokens).displaced) :
    e.SumsDecided ∧ e.isOperation = true := by
  obtain ⟨p, _, _, hdisplaced, hdecided⟩ := exists_phrase_read tokens
  rw [hdisplaced] at h
  exact Phrase.sumsDecided_of_mem_displaced hdecided h

/-- In every tree that is read or displaced, whatever stands on the left of a sum at any depth is a
number, a letter or a call. What is displaced is an operation. -/
theorem read_sums_primary (tokens : List Token) :
    (∀ e ∈ (Grammar.single.read tokens).expr :: (Grammar.single.read tokens).displaced,
      ∀ op left right, Expr.Subtree (.binary op left right) e → op.level = .sum → left.Primary) ∧
    ∀ e ∈ (Grammar.single.read tokens).displaced, e.isOperation = true := by
  refine ⟨?_, fun e he => (sumsDecided_of_mem_displaced_read he).2⟩
  intro e he op left right
  have hsums : e.SumsDecided := by
    rcases List.mem_cons.mp he with rfl | he
    · exact sumsDecided_read tokens
    · exact (sumsDecided_of_mem_displaced_read he).1
  exact hsums.primary_left

/-- The sum between the bars of `|x + y| - z`, which the sign after them displaces. -/
theorem read_sums_primary_displaced_bars :
    .absolute (.binary .add (.letter .x) (.letter .y)) ∈ (Grammar.single.read [.bar, .letter .x,
        .operator .add, .letter .y, .bar, .operator .subtract, .letter .z]).displaced ∧
      Expr.Primary (.letter .x) := by
  have hdisplaced : .absolute (.binary .add (.letter .x) (.letter .y)) ∈
      (Grammar.single.read [.bar, .letter .x, .operator .add, .letter .y, .bar, .operator .subtract,
        .letter .z]).displaced := by
    decide
  have hsums := (read_sums_primary _).1 _ (List.mem_cons_of_mem _ hdisplaced)
  exact ⟨hdisplaced, hsums .add _ _ (.absolute .whole) rfl⟩

end Single
end Formula
