import Mathlib.Algebra.Group.Nat.Defs
import Formula.Decimal.Basic

/-!
# The shortest decimal rounds back

Every finite value is a whole number of units, and rounding that number gives the magnitude
back. So the search for the shortest decimal can fall back on the exact one.
-/

set_option autoImplicit false

namespace Formula

namespace Binary64

/-- The units of the significand, with the leading bit if the magnitude has one. -/
def significand (m : Nat) : Nat :=
  if m < exponentWeight then m else exponentWeight + m % exponentWeight

def scale (m : Nat) : Nat :=
  m / exponentWeight - 1

theorem exponentWeight_eq : exponentWeight = 2 ^ 52 := rfl

theorem twoTo_pos (n : Nat) : 0 < twoTo n :=
  Nat.two_pow_pos n

theorem units_eq (m : Nat) : units m = significand m * twoTo (scale m) := by
  unfold units significand scale
  split
  · rename_i h
    rw [Nat.div_eq_of_lt h]
    exact (Nat.mul_one m).symm
  · rfl

theorem scale_mul_add_significand (m : Nat) : scale m * exponentWeight + significand m = m := by
  unfold significand scale
  rw [exponentWeight_eq]
  split <;> omega

theorem log2_units (m : Nat) : Nat.log2 (units m) - 52 = scale m := by
  have hbound : significand m < 2 ^ 53 := by
    unfold significand
    rw [exponentWeight_eq]
    split <;> omega
  by_cases hsmall : m < exponentWeight
  · have hscale : scale m = 0 := by
      rw [scale, Nat.div_eq_of_lt hsmall]
    rw [units, if_pos hsmall, hscale]
    rcases Nat.eq_zero_or_pos m with rfl | hpos
    · rfl
    · have hlog : Nat.log2 m < 52 := (Nat.log2_lt (Nat.ne_of_gt hpos)).mpr hsmall
      omega
  · have hleading : 2 ^ 52 ≤ significand m := by
      rw [significand, if_neg hsmall, exponentWeight_eq]
      omega
    have hlog : Nat.log2 (units m) = 52 + scale m := by
      have hpos : 0 < significand m * twoTo (scale m) :=
        Nat.mul_pos (by omega) (twoTo_pos _)
      rw [units_eq, Nat.log2_eq_iff (Nat.ne_of_gt hpos), Nat.pow_add,
        show 52 + scale m + 1 = 53 + scale m by omega, Nat.pow_add]
      exact ⟨Nat.mul_le_mul_right _ hleading, Nat.mul_lt_mul_of_pos_right hbound (twoTo_pos _)⟩
    omega

theorem roundToEven_mul (n : Nat) {den : Nat} (h : 0 < den) : roundToEven (n * den) den = n := by
  simp [roundToEven, h]

/-- Rounding is the inverse of counting the units. -/
theorem roundUnits_units {m : Nat} (h : m < infinity) {den : Nat} (hden : 0 < den) :
    roundUnits (units m * den) den = m := by
  have hnum : units m * den = significand m * (den * twoTo (scale m)) := by
    rw [units_eq, Nat.mul_assoc, Nat.mul_comm den]
  rw [roundUnits, Nat.mul_div_cancel _ hden, log2_units, hnum,
    roundToEven_mul _ (Nat.mul_pos hden (twoTo_pos _)), scale_mul_add_significand]
  exact Nat.min_eq_right (Nat.le_of_lt h)

end Binary64

namespace Decimal

theorem tenTo_pos (n : Nat) : 0 < tenTo n :=
  Nat.pow_pos (by decide)

/-- A unit is a power of five of the decimals with as many places as it has binary ones. -/
theorem roundUnits_places {m : Nat} (h : m < Binary64.infinity) (n : Nat) :
    Binary64.roundUnits (Binary64.units m * Nat.pow 5 n * Binary64.twoTo n) (tenTo n) = m := by
  have hten : Nat.pow 5 n * Binary64.twoTo n = tenTo n := (Nat.mul_pow 5 2 n).symm
  rw [Nat.mul_assoc, hten, Binary64.roundUnits_units h (tenTo_pos n)]

theorem magnitude_natCast (c e : Nat) :
    magnitude ⟨c, e⟩ = Binary64.roundUnits (c * tenTo e * Binary64.unitsInOne) 1 := rfl

theorem magnitude_negSucc (c e : Nat) : magnitude ⟨c, .negSucc e⟩ =
    Binary64.roundUnits (c * Binary64.unitsInOne) (tenTo (e + 1)) := rfl

theorem magnitude_exact {m : Nat} (h : m < Binary64.infinity) : (exact m).magnitude = m := by
  have hexact : (exact m).magnitude = Binary64.roundUnits
      (Binary64.units m * Nat.pow 5 1074 * Binary64.unitsInOne) (tenTo 1074) :=
    magnitude_negSucc _ 1073
  apply hexact.trans
  unfold Binary64.unitsInOne
  -- With the number of places in view, powers of that size would be computed.
  generalize 1074 = places
  exact roundUnits_places h places

theorem magnitude_zero : magnitude ⟨0, 0⟩ = 0 := by
  apply (magnitude_natCast 0 0).trans
  simp only [Nat.zero_mul]
  rfl

theorem magnitude_shortest {m : Nat} (h : m < Binary64.infinity) : (shortest m).magnitude = m := by
  unfold shortest
  split
  · rename_i hzero
    rw [hzero]
    exact magnitude_zero
  · dsimp only
    generalize hfound : List.findSome? _ _ = found
    cases found with
    | none =>
      rw [Option.getD_none]
      exact magnitude_exact h
    | some d =>
      obtain ⟨k, _, hk⟩ := List.exists_of_findSome?_eq_some hfound
      rw [Option.getD_some]
      simpa using List.find?_some hk

end Decimal
end Formula
