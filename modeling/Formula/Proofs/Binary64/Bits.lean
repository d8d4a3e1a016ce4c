import Mathlib.Algebra.Group.Nat.Defs
import Formula.Binary64.Basic

/-!
# Numbers and their bits

A number is its bits, and the bits of every magnitude up to infinity are the number of that
magnitude. A number is finite if its magnitude is below infinity.
-/

set_option autoImplicit false

namespace Formula.Binary64

open Float.Model UnpackedFloat

variable (b : BitVec Format.binary64.numBits)

theorem infinity_eq : infinity = 2047 * 2 ^ 52 := rfl

theorem signWeight_eq : signWeight = 2 ^ 63 := rfl

theorem toNat_unpackMantissa : (unpackMantissa b).toNat = b.toNat % 2 ^ 52 := by
  simp [unpackMantissa]

theorem toNat_unpackExponent : (unpackExponent b).toNat = b.toNat / 2 ^ 52 % 2 ^ 11 := by
  simp [unpackExponent, Nat.shiftRight_eq_div_pow]

theorem toNat_unpackSign : (unpackSign b).toNat = b.toNat / 2 ^ 63 % 2 := by
  change (b.extractLsb 63 63).toNat = _
  rw [BitVec.extractLsb_toNat, Nat.shiftRight_eq_div_pow]

theorem toBitVec_ofBitVec (v : BitVec 1) : (Sign.ofBitVec v).toBitVec = v := by
  rcases v.eq_zero_or_eq_one with rfl | rfl <;> rfl

theorem toNat_packComponents (s : UnpackedFloat.Sign) (exponent : BitVec Format.binary64.exponentBits)
    (mantissa : BitVec Format.binary64.mantissaBitsWithoutImplicit) :
    (packComponents Format.binary64 s exponent mantissa).toNat =
      (s.toBitVec.toNat * 2 ^ 11 + exponent.toNat) * 2 ^ 52 + mantissa.toNat := by
  have he : exponent.toNat < 2 ^ 11 := exponent.isLt
  have hm : mantissa.toNat < 2 ^ 52 := mantissa.isLt
  rw [packComponents, BitVec.toNat_append, BitVec.toNat_append,
    ← Nat.shiftLeft_add_eq_or_of_lt hm, ← Nat.shiftLeft_add_eq_or_of_lt he, Nat.shiftLeft_eq,
    Nat.shiftLeft_eq]

theorem packComponents_fields :
    packComponents Format.binary64 (Sign.ofBitVec (unpackSign b)) (unpackExponent b)
      (unpackMantissa b) = b := by
  apply BitVec.eq_of_toNat_eq
  have hlt : b.toNat < 2 ^ 64 := b.isLt
  rw [toNat_packComponents, toBitVec_ofBitVec, toNat_unpackMantissa, toNat_unpackExponent,
    toNat_unpackSign]
  omega

theorem pack_finite (s : UnpackedFloat.Sign) (m : Nat) (e : Int) (hm : 0 < m) :
    UnpackedFloat.pack Format.binary64 (.finite s m e hm) =
      if 2048 ≤ (e + 1023 + 52).toNat + 1 then packedInfinity Format.binary64 s
      else if m.log2 + 1 = 53 then
        packComponents Format.binary64 s (BitVec.ofNat _ (e + 1023 + 52).toNat) (BitVec.ofNat _ m)
      else packComponents Format.binary64 s 0#_ (BitVec.ofNat _ m) := rfl

theorem pack_subnormal (s : UnpackedFloat.Sign) {m : Nat} {e : Int} (he : e = -1074) (hm : 0 < m)
    (hlt : m < 2 ^ 52) : UnpackedFloat.pack Format.binary64 (.finite s m e hm) =
      packComponents Format.binary64 s 0#_ (BitVec.ofNat _ m) := by
  have hlog : m.log2 < 52 := (Nat.log2_lt (Nat.ne_of_gt hm)).mpr hlt
  rw [pack_finite, if_neg (by omega), if_neg (by omega)]

theorem pack_normal (s : UnpackedFloat.Sign) {e m k : Nat} {x : Int} (hx : x = e - 1075)
    (hk : k = 2 ^ 52 + m) (he : e < 2047) (hlt : m < 2 ^ 52) (hpos : 0 < k) :
    UnpackedFloat.pack Format.binary64 (.finite s k x hpos) =
      packComponents Format.binary64 s (BitVec.ofNat _ e) (BitVec.ofNat _ m) := by
  have hlog : k.log2 = 52 := (Nat.log2_eq_iff (by omega)).mpr ⟨by omega, by omega⟩
  have hbiased : (x + 1023 + 52).toNat = e := by omega
  have hmantissa : BitVec.ofNat 52 k = BitVec.ofNat 52 m := by
    apply BitVec.eq_of_toNat_eq
    rw [BitVec.toNat_ofNat, BitVec.toNat_ofNat]
    omega
  rw [pack_finite, hbiased, if_neg (by omega), if_pos (by rw [hlog]), hmantissa]

/-- Packing is the inverse of unpacking, but for the bits of a NaN that is not the chosen one. -/
theorem pack_unpack (h : Format.binary64.Valid b) :
    UnpackedFloat.pack Format.binary64 (unpack Format.binary64 b) = b := by
  have hfields := packComponents_fields b
  have hlt : (unpackMantissa b).toNat < 2 ^ 52 := (unpackMantissa b).isLt
  have hmantissa : BitVec.ofNat 52 (unpackMantissa b).toNat = unpackMantissa b :=
    (BitVec.ofNat_toNat _ _).trans (BitVec.setWidth_eq _)
  unfold UnpackedFloat.unpack
  dsimp only
  by_cases hones : unpackExponent b = -1#_
  · rw [if_pos hones]
    by_cases hzero : unpackMantissa b = 0#_
    · rw [if_pos hzero]
      rw [hones, hzero] at hfields
      exact hfields
    · rw [if_neg hzero]
      exact (h.eq_packedNaN hones hzero).symm
  · rw [if_neg hones]
    by_cases hexponent : unpackExponent b = 0#_
    · rw [if_pos hexponent]
      by_cases hzero : unpackMantissa b = 0#_
      · rw [dif_pos hzero]
        rw [hexponent, hzero] at hfields
        exact hfields
      · have hleast : ((unpackExponent b).toNat : Int) - (1023 + 52) + 1 = -1074 := by
          rw [hexponent]
          rfl
        have hpos : 0 < (unpackMantissa b).toNat :=
          Nat.pos_of_ne_zero fun heq => hzero (BitVec.eq_of_toNat_eq heq)
        rw [dif_neg hzero]
        refine (pack_subnormal _ hleast hpos hlt).trans ?_
        rw [hmantissa, ← hexponent, hfields]
    · have hbelow : (unpackExponent b).toNat < 2047 := by
        have hne : (unpackExponent b).toNat ≠ 2047 := fun heq => hones (BitVec.eq_of_toNat_eq heq)
        have hlt : (unpackExponent b).toNat < 2 ^ 11 := (unpackExponent b).isLt
        omega
      have hbits : BitVec.ofNat 11 (unpackExponent b).toNat = unpackExponent b :=
        (BitVec.ofNat_toNat _ _).trans (BitVec.setWidth_eq _)
      have hleading : (1#1 ++ unpackMantissa b).toNat = 2 ^ 52 + (unpackMantissa b).toNat := by
        rw [BitVec.toNat_append, ← Nat.shiftLeft_add_eq_or_of_lt hlt]
        rfl
      rw [if_neg hexponent]
      refine (pack_normal _ rfl hleading hbelow hlt (by omega)).trans ?_
      rw [hmantissa, hbits, hfields]

theorem ofBits_toBits (x : Float) : Float.ofBits x.toBits = x := by
  obtain ⟨⟨bits, hvalid⟩⟩ := x
  have hbits : UInt64.ofBitVec (UnpackedFloat.pack Format.binary64
      (unpack Format.binary64 bits.toBitVec)) = bits := by
    rw [pack_unpack _ hvalid]
  exact congrArg Float.ofModel ((Float.Model.mk.injEq _ _ _ _).mpr hbits)

theorem ofParts_magnitude (x : Float) : ofParts (isNegative x) (magnitude x) = x := by
  have hlt : x.toBits.toNat < 2 ^ 64 := x.toBits.toNat_lt
  have hparts : (if isNegative x then signWeight + magnitude x else magnitude x) =
      x.toBits.toNat := by
    by_cases h : signWeight ≤ x.toBits.toNat
    · have hnegative : isNegative x = true := decide_eq_true h
      rw [hnegative, if_pos rfl, magnitude]
      rw [signWeight_eq] at h ⊢
      omega
    · have hnegative : isNegative x = false := decide_eq_false h
      rw [hnegative, if_neg Bool.false_ne_true, magnitude]
      exact Nat.mod_eq_of_lt (Nat.not_le.mp h)
  rw [ofParts, hparts, UInt64.ofNat_toNat, ofBits_toBits]

theorem toBits_ofBits {bits : UInt64} (h : Format.binary64.Valid bits.toBitVec) :
    (Float.ofBits bits).toBits = bits := by
  change UInt64.ofBitVec (UnpackedFloat.pack Format.binary64 (unpack Format.binary64 _)) = bits
  rw [pack_unpack _ h]

/-- Bits of a magnitude that is no NaN stand for themselves. -/
theorem valid_of_le_infinity (h : b.toNat % 2 ^ 63 ≤ infinity) : Format.binary64.Valid b := by
  constructor
  intro hones hnan
  have hexponent := toNat_unpackExponent b
  have hmantissa := toNat_unpackMantissa b
  have hinfinity : infinity = 2047 * 2 ^ 52 := rfl
  have hall : (unpackExponent b).toNat = 2047 := by
    rw [hones]
    rfl
  refine absurd (BitVec.eq_of_toNat_eq ?_) hnan
  rw [BitVec.toNat_zero]
  omega

theorem toNat_toBits_ofParts {m : Nat} (h : m ≤ infinity) : (ofParts false m).toBits.toNat = m := by
  have hlt : m < 2 ^ 63 := by
    rw [infinity_eq] at h
    omega
  have hbits : (UInt64.ofNat m).toNat = m :=
    UInt64.toNat_ofNat_of_lt' (Nat.lt_trans hlt (by decide))
  have hvalid : Format.binary64.Valid (UInt64.ofNat m).toBitVec := by
    apply valid_of_le_infinity
    change (UInt64.ofNat m).toNat % 2 ^ 63 ≤ infinity
    rwa [hbits, Nat.mod_eq_of_lt hlt]
  change (Float.ofBits (UInt64.ofNat m)).toBits.toNat = m
  rw [toBits_ofBits hvalid, hbits]

theorem magnitude_ofParts {m : Nat} (h : m ≤ infinity) : magnitude (ofParts false m) = m := by
  rw [magnitude, toNat_toBits_ofParts h, signWeight_eq]
  rw [infinity_eq] at h
  omega

theorem isNegative_ofParts {m : Nat} (h : m ≤ infinity) : isNegative (ofParts false m) = false := by
  rw [isNegative, toNat_toBits_ofParts h, signWeight_eq, decide_eq_false_iff_not]
  rw [infinity_eq] at h
  omega

/-- The greatest exponent is the one of infinity and the NaN. -/
theorem isFinite_unpack : (unpack Format.binary64 b).isFinite = true ↔ unpackExponent b ≠ -1#_ := by
  unfold UnpackedFloat.unpack
  dsimp only
  by_cases hones : unpackExponent b = -1#_
  · rw [if_pos hones]
    refine ⟨fun hfinite => ?_, fun hne => absurd hones hne⟩
    by_cases hzero : unpackMantissa b = 0#_
    · rw [if_pos hzero] at hfinite
      cases hfinite
    · rw [if_neg hzero] at hfinite
      cases hfinite
  · rw [if_neg hones]
    refine ⟨fun _ => hones, fun _ => ?_⟩
    by_cases hexponent : unpackExponent b = 0#_
    · rw [if_pos hexponent]
      by_cases hzero : unpackMantissa b = 0#_
      · rw [dif_pos hzero]
        rfl
      · rw [dif_neg hzero]
        rfl
    · rw [if_neg hexponent]
      rfl

theorem exponent_eq_ones_iff : unpackExponent b = -1#_ ↔ infinity ≤ b.toNat % 2 ^ 63 := by
  have hall : unpackExponent b = -1#_ ↔ (unpackExponent b).toNat = 2047 :=
    ⟨fun h => congrArg BitVec.toNat h, fun h => BitVec.eq_of_toNat_eq h⟩
  rw [hall, toNat_unpackExponent, infinity_eq]
  omega

theorem isFinite_iff (x : Float) : x.isFinite = true ↔ magnitude x < infinity := by
  apply (isFinite_unpack x.toBits.toBitVec).trans
  rw [Ne, exponent_eq_ones_iff, Nat.not_le]
  rfl

/-- Of the numbers with the greatest exponent, only the infinity has no mantissa. -/
theorem isNaN_unpack : (unpack Format.binary64 b).isNaN = true ↔
    unpackExponent b = -1#_ ∧ unpackMantissa b ≠ 0#_ := by
  unfold UnpackedFloat.unpack
  dsimp only
  by_cases hones : unpackExponent b = -1#_
  · rw [if_pos hones]
    by_cases hzero : unpackMantissa b = 0#_
    · rw [if_pos hzero]
      exact ⟨fun hnan => (Bool.false_ne_true hnan).elim, fun h => absurd hzero h.2⟩
    · rw [if_neg hzero]
      exact ⟨fun _ => ⟨hones, hzero⟩, fun _ => rfl⟩
  · rw [if_neg hones]
    refine ⟨fun hnan => ?_, fun h => absurd h.1 hones⟩
    by_cases hexponent : unpackExponent b = 0#_
    · rw [if_pos hexponent] at hnan
      by_cases hzero : unpackMantissa b = 0#_
      · rw [dif_pos hzero] at hnan
        cases hnan
      · rw [dif_neg hzero] at hnan
        cases hnan
    · rw [if_neg hexponent] at hnan
      cases hnan

theorem mantissa_eq_zero_iff : unpackMantissa b = 0#_ ↔ b.toNat % 2 ^ 52 = 0 := by
  have hzero : unpackMantissa b = 0#_ ↔ (unpackMantissa b).toNat = 0 :=
    ⟨fun h => congrArg BitVec.toNat h, fun h => BitVec.eq_of_toNat_eq h⟩
  rw [hzero, toNat_unpackMantissa]

theorem isNaN_iff (x : Float) : x.isNaN = true ↔ infinity < magnitude x := by
  apply (isNaN_unpack x.toBits.toBitVec).trans
  rw [exponent_eq_ones_iff, Ne, mantissa_eq_zero_iff, infinity_eq]
  change _ ↔ 2047 * 2 ^ 52 < x.toBits.toBitVec.toNat % 2 ^ 63
  omega

theorem isNaN_ofParts {m : Nat} (h : m ≤ infinity) : (ofParts false m).isNaN = false := by
  rw [Bool.eq_false_iff, Ne, isNaN_iff, magnitude_ofParts h]
  exact Nat.not_lt.mpr h

end Formula.Binary64
