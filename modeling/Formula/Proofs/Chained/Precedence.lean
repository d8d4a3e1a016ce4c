import Formula.Proofs.Phrase.Basic

/-!
# The precedence of operators in chains

A chain is a row of operands with an operator between each two of them, and with any number of signs
before each. Its reading is defined without a reader: the chain is split at its loosest operator,
the last one if there are several, and each of its parts is read for itself. Only powers are taken
from the front.
-/

set_option autoImplicit false

namespace Formula.Chained

/-- Operands of any kind with an operator between each two of them, and any number of signs before
each of them. -/
inductive Chain (α : Type) where
  | last (operand : α)
  | signed (sign : Sign) (rest : Chain α)
  | link (operand : α) (op : Operator) (rest : Chain α)

namespace Chain

variable {α : Type}

/-- The operators between the operands. Signs are none of them. -/
def operators : Chain α → List Operator
  | last _ => []
  | signed _ rest => rest.operators
  | link _ op rest => op :: rest.operators

/-- The chain of both, with the operator between them. -/
def join : Chain α → Operator → Chain α → Chain α
  | last operand, op, right => link operand op right
  | signed sign rest, op, right => signed sign (rest.join op right)
  | link operand op' rest, op, right => link operand op' (rest.join op right)

/-- The parts on both sides of the last operator of the level. -/
def splitLast? (level : Level) : Chain α → Option (Chain α × Operator × Chain α)
  | last _ => none
  | signed sign rest =>
    (rest.splitLast? level).map fun (left, op, right) => (signed sign left, op, right)
  | link operand op rest =>
    match rest.splitLast? level with
    | some (left, op', right) => some (link operand op left, op', right)
    | none => if op.level = level then some (last operand, op, rest) else none

@[simp] theorem operators_join (left : Chain α) (op : Operator) (right : Chain α) :
    (left.join op right).operators = left.operators ++ op :: right.operators := by
  induction left with
  | last operand => rfl
  | signed sign rest ih => exact ih
  | link operand op' rest ih => exact congrArg (op' :: ·) ih

variable {level : Level} {s left right : Chain α} {op : Operator}

theorem splitLast?_eq_none_iff :
    s.splitLast? level = none ↔ ∀ op ∈ s.operators, op.level ≠ level := by
  induction s with
  | last operand => simp [splitLast?, operators]
  | signed sign rest ih => simpa [splitLast?, operators] using ih
  | link operand op rest ih =>
    rw [operators, List.forall_mem_cons, ← ih, splitLast?]
    split
    · rename_i hrest
      simp [hrest]
    · rename_i hrest
      simp [hrest]

theorem splitLast?_join (hop : op.level = level) (hright : right.splitLast? level = none) :
    (left.join op right).splitLast? level = some (left, op, right) := by
  induction left with
  | last operand => simp [join, splitLast?, hright, hop]
  | signed sign rest ih => simp [join, splitLast?, ih]
  | link operand op' rest ih => simp [join, splitLast?, ih]

theorem eq_join_of_splitLast? (h : s.splitLast? level = some (left, op, right)) :
    s = left.join op right ∧ op.level = level ∧ right.splitLast? level = none := by
  induction s generalizing left with
  | last operand => cases h
  | signed sign rest ih =>
    obtain ⟨⟨left', op', right'⟩, hrest, heq⟩ := Option.map_eq_some_iff.mp h
    obtain ⟨rfl, rfl, rfl⟩ : signed sign left' = left ∧ op' = op ∧ right' = right := by
      simpa using heq
    obtain ⟨rfl, hsplit⟩ := ih hrest
    exact ⟨rfl, hsplit⟩
  | link operand op' rest ih =>
    rw [splitLast?] at h
    split at h
    · rename_i left' op'' right' hrest
      obtain ⟨rfl, rfl, rfl⟩ : link operand op' left' = left ∧ op'' = op ∧ right' = right := by
        simpa using h
      obtain ⟨rfl, hsplit⟩ := ih hrest
      exact ⟨rfl, hsplit⟩
    · rename_i hrest
      split at h
      · rename_i hlevel
        obtain ⟨rfl, rfl, rfl⟩ : last operand = left ∧ op' = op ∧ rest = right := by
          simpa using h
        exact ⟨rfl, hlevel, hrest⟩
      · cases h

/-- The split is the one at the last operator of the level. -/
theorem splitLast?_eq_some_iff : s.splitLast? level = some (left, op, right) ↔
    s = left.join op right ∧ op.level = level ∧ ∀ op' ∈ right.operators, op'.level ≠ level := by
  rw [← splitLast?_eq_none_iff]
  constructor
  · exact eq_join_of_splitLast?
  · rintro ⟨rfl, hop, hright⟩
    exact splitLast?_join hop hright

theorem length_lt_of_splitLast? (h : s.splitLast? level = some (left, op, right)) :
    left.operators.length < s.operators.length := by
  obtain ⟨rfl, -⟩ := splitLast?_eq_some_iff.mp h
  rw [operators_join, List.length_append, List.length_cons]
  omega

/-- The reading of a chain of powers. They are taken from the front, and so are the signs. -/
def power : Chain Expr → Expr
  | last e => e
  | signed sign rest => .signed sign rest.power
  | link e .power rest => .binary .power e rest.power
  | link e _ _ => e

/-- The reading of a chain without sums, by the last of its products. -/
def product (s : Chain Expr) : Expr :=
  match _ : s.splitLast? .product with
  | some (left, op, right) => .binary op left.product right.power
  | none => s.power
termination_by s.operators.length
decreasing_by exact length_lt_of_splitLast? ‹_›

/-- The reading of a chain without sums, where a sign before it is a sign of the whole product. -/
def leadingProduct : Chain Expr → Expr
  | signed sign rest => .signed sign rest.product
  | s => s.product

/-- The reading of a chain, by the last of its sums. -/
def sum (s : Chain Expr) : Expr :=
  match _ : s.splitLast? .sum with
  | some (left, op, right) => .binary op left.sum right.product
  | none => s.leadingProduct
termination_by s.operators.length
decreasing_by exact length_lt_of_splitLast? ‹_›

def reading (s : Chain Expr) : Level → Expr
  | .sum => s.sum
  | .product => s.product
  | .power => s.power

theorem product_eq (s : Chain Expr) : s.product = match s.splitLast? .product with
    | some (left, op, right) => .binary op left.product right.power
    | none => s.power := by
  rw [product]
  split
  · rename_i h
    rw [h]
  · rename_i h
    rw [h]

theorem sum_eq (s : Chain Expr) : s.sum = match s.splitLast? .sum with
    | some (left, op, right) => .binary op left.sum right.product
    | none => s.leadingProduct := by
  rw [sum]
  split
  · rename_i h
    rw [h]
  · rename_i h
    rw [h]

/-- A chain is read in two parts at the last operator of its level. -/
theorem reading_join {next : Level} {left right : Chain Expr} (hnext : level.operand = some next)
    (hop : op.level = level) (hright : right.splitLast? level = none) :
    (left.join op right).reading level = .binary op (left.reading level) (right.reading next) := by
  have hsplit : (left.join op right).splitLast? level = some (left, op, right) :=
    splitLast?_join hop hright
  cases level with
  | sum =>
    cases hnext
    simp only [reading, sum_eq (left.join op right), hsplit]
  | product =>
    cases hnext
    simp only [reading, product_eq (left.join op right), hsplit]
  | power => cases hnext

theorem product_eq_power {s : Chain Expr} (h : s.splitLast? .product = none) :
    s.product = s.power := by
  rw [product_eq, h]

theorem sum_eq_leadingProduct {s : Chain Expr} (h : s.splitLast? .sum = none) :
    s.sum = s.leadingProduct := by
  rw [sum_eq, h]

/-- No operator of the chain is looser than the level. -/
def Tight (level : Level) (s : Chain α) : Prop :=
  ∀ op ∈ s.operators, level.strength ≤ op.level.strength

theorem strength_lt_of_operand {next : Level} (h : level.operand = some next) :
    level.strength < next.strength := by
  cases level <;> cases h <;> decide

theorem Tight.splitLast?_eq_none {next : Level} (h : s.Tight next)
    (hnext : level.operand = some next) : s.splitLast? level = none := by
  rw [splitLast?_eq_none_iff]
  rintro op hop rfl
  exact Nat.not_le_of_lt (strength_lt_of_operand hnext) (h op hop)

theorem Tight.of_operand {next : Level} (h : s.Tight next) (hnext : level.operand = some next) :
    s.Tight level :=
  fun op hop => Nat.le_trans (Nat.le_of_lt (strength_lt_of_operand hnext)) (h op hop)

theorem Tight.join {next : Level} (hleft : left.Tight level) (hop : op.level = level)
    (hright : right.Tight next) (hnext : level.operand = some next) :
    (left.join op right).Tight level := by
  subst hop
  rw [Tight, operators_join, List.forall_mem_append, List.forall_mem_cons]
  exact ⟨hleft, Nat.le_refl _, hright.of_operand hnext⟩

end Chain

/-- What stands between the operators of a chain. No sign comes directly after a function. -/
inductive Operand where
  | number (value : Float)
  | letter (v : Letter)
  | group (b : Bracket) (content : Chain Operand)
  | call (f : Elementary) (argument : Operand)

mutual

def Operand.tokens : Operand → List Token
  | .number value => [.number value]
  | .letter v => [.letter v]
  | .group b content => b.opening :: (content.tokens ++ [b.closing])
  | .call f argument => .function f :: argument.tokens

def Chain.tokens : Chain Operand → List Token
  | .last operand => operand.tokens
  | .signed sign rest => .operator sign.operator :: rest.tokens
  | .link operand op rest => operand.tokens ++ .operator op :: rest.tokens

end

mutual

/-- The reading of an operand. What it contains is read as a chain of its own. -/
def Operand.expr : Operand → Expr
  | .number value => .number value
  | .letter v => .letter v
  | .group b content => b.wrap content.exprs.sum
  | .call f argument => .call f argument.expr

def Chain.exprs : Chain Operand → Chain Expr
  | .last operand => .last operand.expr
  | .signed sign rest => .signed sign rest.exprs
  | .link operand op rest => .link operand.expr op rest.exprs

end

namespace Chain

@[simp] theorem operators_exprs (s : Chain Operand) : s.exprs.operators = s.operators := by
  induction s with
  | last operand => rfl
  | signed sign rest ih => exact ih
  | link operand op rest ih => exact congrArg (op :: ·) ih

@[simp] theorem exprs_join (left : Chain Operand) (op : Operator) (right : Chain Operand) :
    (left.join op right).exprs = left.exprs.join op right.exprs := by
  induction left with
  | last operand => rfl
  | signed sign rest ih => exact congrArg (signed sign) ih
  | link operand op' rest ih => exact congrArg (link operand.expr op') ih

theorem Tight.exprs {level : Level} {s : Chain Operand} (h : s.Tight level) :
    s.exprs.Tight level := by
  rwa [Tight, operators_exprs]

end Chain
end Formula.Chained
