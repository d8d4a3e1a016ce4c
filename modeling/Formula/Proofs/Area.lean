import Mathlib.Algebra.BigOperators.Ring.Finset
import Mathlib.Algebra.Order.Ring.Rat
import Mathlib.Tactic.NormNum
import Mathlib.Tactic.Ring
import Formula.Area

/-!
# Areas in exact arithmetic

Without rounding, the heights of a partition add up to a finite sum over its right edges. For a
linear function this sum has a closed form: each rectangle exceeds the integral by half of what the
function rises over its division.
-/

set_option autoImplicit false

namespace Formula

/-- The rational numbers, where no operation rounds. -/
instance : Arithmetic ℚ where
  ofCount n := n
  emptySum := 0
  less a b := a < b

namespace Partition

variable (p : Partition ℚ)

theorem heights_eq_sum (f : ℚ → ℚ) :
    p.heights f = ∑ index ∈ Finset.range p.divisions, f (p.rightEdge index) := by
  have hfold (n : Nat) (term : Nat → ℚ) :
      n.fold (fun index _ sum => sum + term index) 0 = ∑ index ∈ Finset.range n, term index := by
    induction n with
    | zero => rfl
    | succ n ih => rw [Nat.fold_succ, Finset.sum_range_succ, ih]
  exact hfold p.divisions fun index => f (p.rightEdge index)

theorem rightEdge_eq (index : Nat) : p.rightEdge index = p.lower + (index + 1) * p.width := by
  rw [← Nat.cast_succ]
  rfl

theorem divisions_mul_width (h : 0 < p.divisions) :
    (p.divisions : ℚ) * p.width = p.upper - p.lower :=
  mul_div_cancel₀ _ (Nat.cast_ne_zero.mpr (Nat.ne_of_gt h))

/-- The right edges, counted in widths from the lower limit, are the first natural numbers. -/
theorem sum_rightEdge :
    2 * ∑ index ∈ Finset.range p.divisions, p.rightEdge index =
      p.divisions * (2 * p.lower + (p.divisions + 1) * p.width) := by
  simp only [rightEdge_eq]
  induction p.divisions with
  | zero => simp
  | succ n ih =>
    rw [Finset.sum_range_succ, mul_add, ih]
    push_cast
    ring

theorem heights_linear (slope intercept : ℚ) :
    p.heights (fun x => slope * x + intercept) =
      slope * ∑ index ∈ Finset.range p.divisions, p.rightEdge index + p.divisions * intercept := by
  rw [heights_eq_sum, Finset.sum_add_distrib, ← Finset.mul_sum, Finset.sum_const, Finset.card_range,
    nsmul_eq_mul]

/-- The rectangles of a linear function exceed its integral by half of a rectangle as tall as the
whole rise. -/
theorem area_linear_eq (slope intercept : ℚ) (h : 0 < p.divisions) :
    p.area (fun x => slope * x + intercept) =
      slope * (p.upper ^ 2 - p.lower ^ 2) / 2 + intercept * (p.upper - p.lower) +
        slope * (p.upper - p.lower) * p.width / 2 := by
  have hsum := p.sum_rightEdge
  have hwidth := p.divisions_mul_width h
  rw [area, heights_linear]
  generalize ∑ index ∈ Finset.range p.divisions, p.rightEdge index = sum at hsum ⊢
  calc (slope * sum + p.divisions * intercept) * p.width
      = slope * (2 * sum) * p.width / 2 + intercept * (p.divisions * p.width) := by ring
    _ = slope * (p.divisions * p.width) * (2 * p.lower + p.divisions * p.width + p.width) / 2 +
          intercept * (p.divisions * p.width) := by rw [hsum]; ring
    _ = slope * (p.upper ^ 2 - p.lower ^ 2) / 2 + intercept * (p.upper - p.lower) +
          slope * (p.upper - p.lower) * p.width / 2 := by rw [hwidth]; ring

theorem between_eq (a b : ℚ) (divisions : Nat) :
    between a b divisions = ⟨min a b, max a b, divisions⟩ := by
  unfold between
  rcases lt_or_ge b a with h | h
  · have hless : Arithmetic.less b a = true := decide_eq_true h
    rw [if_pos hless, min_eq_right_of_lt h, max_eq_left_of_lt h]
  · have hless : ¬ Arithmetic.less b a = true := by
      simpa [Arithmetic.less] using h
    rw [if_neg hless, min_eq_left h, max_eq_right h]

end Partition

/-- The area under a linear function, whichever limit is given first: the integral between the
limits, and half of the whole rise over the width of one division. -/
theorem area_linear (a b slope intercept : ℚ) {divisions : Nat} (h : 0 < divisions) :
    area divisions a b (fun x => slope * x + intercept) =
      .ok (slope * (max a b ^ 2 - min a b ^ 2) / 2 + intercept * (max a b - min a b) +
        slope * (max a b - min a b) ^ 2 / (2 * divisions)) := by
  have harea := (Partition.mk (min a b) (max a b) divisions).area_linear_eq slope intercept h
  have hwidth : slope * (max a b - min a b) * (Partition.mk (min a b) (max a b) divisions).width / 2 =
      slope * (max a b - min a b) ^ 2 / (2 * divisions) := by
    change slope * (max a b - min a b) * ((max a b - min a b) / divisions) / 2 = _
    ring
  rw [area, if_neg (Nat.ne_of_gt h), Partition.between_eq, harea, hwidth]

/-- The limits are given in descending order. The right edges of the three divisions are 1, 3
and 5. -/
theorem area_linear_descending :
    0 < 3 ∧ area 3 (5 : ℚ) (-1) (fun x => -2 * x + 7) = .ok 6 := by
  refine ⟨by decide, ?_⟩
  rw [area_linear 5 (-1) (-2) 7 (by decide), min_eq_right (by decide), max_eq_left (by decide)]
  norm_num

end Formula
