import Mathlib.Data.List.TakeWhile
import Formula.Decimal.Numeral
import Formula.Decimal.Text
import Formula.Proofs.Binary64.Bits
import Formula.Proofs.Decimal.Shortest

/-!
# Plain text is a numeral

The plain text of a decimal is made of digits and at most one point, and as a numeral it is
worth as much as the decimal. So the text of a finite number that is not negative reads back as
the number.
-/

set_option autoImplicit false

namespace Formula

namespace Decimal

theorem isDigit_of_mem_toDigits {n : Nat} {c : Char} (h : c ∈ Nat.toDigits 10 n) :
    c.isDigit = true :=
  Nat.isDigit_of_mem_toDigits (by decide) (by decide) h

theorem isDigit_of_mem_paddedDigits {places n : Nat} {c : Char} (h : c ∈ paddedDigits places n) :
    c.isDigit = true := by
  rcases List.mem_append.mp h with h | h
  · rw [List.eq_of_mem_replicate h]
    rfl
  · exact isDigit_of_mem_toDigits h

theorem length_paddedDigits {places n : Nat} (hplaces : 0 < places) (h : n < tenTo places) :
    (paddedDigits places n).length = places := by
  have hle : (Nat.toDigits 10 n).length ≤ places :=
    (Nat.length_toDigits_le_iff (by decide) hplaces).mpr h
  simp only [paddedDigits, List.length_append, List.length_replicate]
  omega

theorem digitsValue_toDigits (n : Nat) : Numeral.digitsValue (Nat.toDigits 10 n) = n :=
  Nat.ofDigitChars_ten_toDigits

theorem digitsValue_paddedDigits (places n : Nat) :
    Numeral.digitsValue (paddedDigits places n) = n := by
  change Nat.ofDigitChars 10 (List.replicate _ '0' ++ Nat.toDigits 10 n) 0 = n
  rw [Nat.ofDigitChars_append, Nat.ofDigitChars_replicate_zero, Nat.mul_zero,
    Nat.ofDigitChars_ten_toDigits]

theorem digitsValue_append (whole part : List Char) :
    Numeral.digitsValue (whole ++ part) =
      tenTo part.length * Numeral.digitsValue whole + Numeral.digitsValue part := by
  change Nat.ofDigitChars 10 (whole ++ part) 0 = _
  rw [Nat.ofDigitChars_append, Nat.ofDigitChars_eq_ofDigitChars_zero]
  rfl

theorem decimal?_digits {digits : List Char} (hne : digits ≠ [])
    (h : ∀ c ∈ digits, c.isDigit = true) :
    Numeral.decimal? digits = some ⟨Numeral.digitsValue digits, 0⟩ := by
  have htake : digits.takeWhile Char.isDigit = digits := List.takeWhile_eq_self_iff.mpr h
  have hdrop : digits.dropWhile Char.isDigit = [] := List.dropWhile_eq_nil_iff.mpr h
  simp [Numeral.decimal?, htake, hdrop, hne]

/-- The digits before a point end there. -/
theorem span_isDigit_point {whole : List Char} (h : ∀ c ∈ whole, c.isDigit = true)
    (part : List Char) :
    (whole ++ '.' :: part).takeWhile Char.isDigit = whole ∧
      (whole ++ '.' :: part).dropWhile Char.isDigit = '.' :: part := by
  have hpoint : ('.' : Char).isDigit = false := by decide
  rw [List.takeWhile_append_of_pos h, List.dropWhile_append_of_pos h]
  simp [hpoint]

theorem decimal?_point {whole part : List Char} (hne : whole ≠ [])
    (hwhole : ∀ c ∈ whole, c.isDigit = true) (hpart : ∀ c ∈ part, c.isDigit = true) :
    Numeral.decimal? (whole ++ '.' :: part) =
      some ⟨Numeral.digitsValue (whole ++ part), -(part.length : Int)⟩ := by
  obtain ⟨htake, hdrop⟩ := span_isDigit_point hwhole part
  have hall : part.all Char.isDigit = true := List.all_eq_true.mpr hpart
  simp [Numeral.decimal?, htake, hdrop, hne, hall]

/-- The plain text of a decimal reads as a decimal of the same magnitude. -/
theorem decimal?_plain (d : Decimal) :
    ∃ d', Numeral.decimal? d.plain = some d' ∧ d'.magnitude = d.magnitude := by
  obtain ⟨c, e | e⟩ := d
  · refine ⟨⟨c * tenTo e, 0⟩, ?_, ?_⟩
    · rw [plain, decimal?_digits Nat.toDigits_ne_nil fun _ => isDigit_of_mem_toDigits,
        digitsValue_toDigits]
    · apply (magnitude_natCast (c * tenTo e) 0).trans
      rw [show tenTo 0 = 1 from rfl, Nat.mul_one]
      exact (magnitude_natCast c e).symm
  · refine ⟨⟨c, .negSucc e⟩, ?_, rfl⟩
    have hlength : (paddedDigits (e + 1) (c % tenTo (e + 1))).length = e + 1 :=
      length_paddedDigits (Nat.succ_pos e) (Nat.mod_lt _ (tenTo_pos _))
    rw [plain, decimal?_point Nat.toDigits_ne_nil (fun _ => isDigit_of_mem_toDigits)
      fun _ => isDigit_of_mem_paddedDigits, digitsValue_append, hlength, digitsValue_toDigits,
      digitsValue_paddedDigits, Nat.div_add_mod]
    rfl

theorem plain_ne_nil (d : Decimal) : d.plain ≠ [] := by
  obtain ⟨c, e | e⟩ := d
  · exact Nat.toDigits_ne_nil
  · exact List.append_ne_nil_of_right_ne_nil _ (List.cons_ne_nil _ _)

theorem isPart_of_mem_plain {d : Decimal} {c : Char} (h : c ∈ d.plain) :
    Numeral.isPart c = true := by
  have hdigit (hc : c.isDigit = true) : Numeral.isPart c = true := by
    rw [Numeral.isPart, hc, Bool.true_or]
  obtain ⟨n, e | e⟩ := d
  · exact hdigit (isDigit_of_mem_toDigits h)
  · rcases List.mem_append.mp h with h | h
    · exact hdigit (isDigit_of_mem_toDigits h)
    · rcases List.mem_cons.mp h with rfl | h
      · rfl
      · exact hdigit (isDigit_of_mem_paddedDigits h)

end Decimal

theorem Numeral.longestValue?_of_value? {text : List Char} {length : Nat} {value : Float}
    (h : Numeral.value? (text.take length) = some value) :
    Numeral.longestValue? text length = some value := by
  cases length with
  | zero => cases h
  | succ length => rw [Numeral.longestValue?, h]

/-- A run that is a numeral is its own longest leading one. -/
theorem Numeral.runValue_of_value? {run : List Char} {value : Float}
    (h : Numeral.value? run = some value) : Numeral.runValue run = value := by
  rw [← run.take_length] at h
  rw [Numeral.runValue, Numeral.longestValue?_of_value? h]
  rfl

theorem Decimal.magnitude_le_infinity (d : Decimal) : d.magnitude ≤ Binary64.infinity := by
  obtain ⟨c, e | e⟩ := d
  · exact Nat.min_le_left _ _
  · exact Nat.min_le_left _ _

/-- What is read from a run of digits and points has no sign and is no NaN. -/
theorem Numeral.exists_runValue (run : List Char) :
    ∃ m ≤ Binary64.infinity, Numeral.runValue run = Binary64.ofParts false m := by
  have hlongest (length : Nat) (value : Float)
      (h : Numeral.longestValue? run length = some value) :
      ∃ m ≤ Binary64.infinity, value = Binary64.ofParts false m := by
    induction length with
    | zero => cases h
    | succ length ih =>
      rw [Numeral.longestValue?] at h
      cases hvalue : Numeral.value? (run.take (length + 1)) with
      | none =>
        rw [hvalue] at h
        exact ih h
      | some value' =>
        rw [hvalue] at h
        obtain rfl := Option.some.inj h
        obtain ⟨d, _, hd⟩ := Option.map_eq_some_iff.mp hvalue
        exact ⟨d.magnitude, d.magnitude_le_infinity, hd.symm⟩
  rw [Numeral.runValue]
  cases h : Numeral.longestValue? run run.length with
  | none => exact ⟨0, Nat.zero_le _, rfl⟩
  | some value => exact hlongest _ _ h

variable {m : Nat}

theorem toList_plainText (h : m < Binary64.infinity) :
    (plainText (Binary64.ofParts false m)).toList = (Decimal.shortest m).plain := by
  have hle := Nat.le_of_lt h
  rw [plainText, signedText, Binary64.magnitude_ofParts hle, Binary64.isNegative_ofParts hle]
  simp only [if_neg (Nat.not_lt.mpr hle), if_neg (Nat.ne_of_lt h), Bool.false_eq_true, if_false,
    String.toList_ofList]

theorem runValue_plain_shortest (h : m < Binary64.infinity) :
    Numeral.runValue (Decimal.shortest m).plain = Binary64.ofParts false m := by
  obtain ⟨d, hd, hmagnitude⟩ := (Decimal.shortest m).decimal?_plain
  apply Numeral.runValue_of_value?
  rw [Numeral.value?, hd, Option.map_some, Decimal.toFloat, hmagnitude,
    Decimal.magnitude_shortest h]

/-- The text of a number that is no NaN, without its sign. -/
def magnitudeText (m : Nat) : List Char :=
  if m = Binary64.infinity then ['i', 'n', 'f'] else (Decimal.shortest m).plain

theorem mem_magnitudeText {c : Char} (h : c ∈ magnitudeText m) :
    Numeral.isPart c = true ∨ c ∈ ['i', 'n', 'f'] := by
  unfold magnitudeText at h
  split at h
  · exact .inr h
  · exact .inl (Decimal.isPart_of_mem_plain h)

theorem minus_notMem_magnitudeText (m : Nat) : '-' ∉ magnitudeText m := by
  intro h
  rcases mem_magnitudeText h with h | h
  · cases h
  · simp at h

theorem magnitudeText_ne_infinity (h : m < Binary64.infinity) :
    magnitudeText m ≠ magnitudeText Binary64.infinity := by
  rw [magnitudeText, magnitudeText, if_neg (Nat.ne_of_lt h), if_pos rfl]
  intro heq
  have hpart : Numeral.isPart 'i' = true :=
    Decimal.isPart_of_mem_plain (heq ▸ List.mem_cons_self)
  cases hpart

theorem magnitudeText_inj {m' : Nat} (h : m ≤ Binary64.infinity) (h' : m' ≤ Binary64.infinity)
    (heq : magnitudeText m = magnitudeText m') : m = m' := by
  rcases Nat.lt_or_eq_of_le h with hlt | rfl
  · rcases Nat.lt_or_eq_of_le h' with hlt' | rfl
    · rw [magnitudeText, magnitudeText, if_neg (Nat.ne_of_lt hlt), if_neg (Nat.ne_of_lt hlt')] at heq
      have hvalue : Binary64.ofParts false m = Binary64.ofParts false m' := by
        rw [← runValue_plain_shortest hlt, ← runValue_plain_shortest hlt', heq]
      rw [← Binary64.magnitude_ofParts h, hvalue, Binary64.magnitude_ofParts h']
    · exact absurd heq (magnitudeText_ne_infinity hlt)
  · rcases Nat.lt_or_eq_of_le h' with hlt' | rfl
    · exact absurd heq.symm (magnitudeText_ne_infinity hlt')
    · rfl

theorem toList_plainText_eq {x : Float} (h : x.isNaN = false) :
    (plainText x).toList =
      if Binary64.isNegative x then '-' :: magnitudeText (Binary64.magnitude x)
      else magnitudeText (Binary64.magnitude x) := by
  have hle : ¬ Binary64.infinity < Binary64.magnitude x := by
    rw [← Binary64.isNaN_iff, h]
    exact Bool.false_ne_true
  rw [plainText, signedText]
  simp only [if_neg hle, String.toList_ofList]
  rfl

/-- Plain text is made of the parts of numerals, the minus and the letters of the other values. -/
theorem mem_plainText {x : Float} {c : Char} (h : c ∈ (plainText x).toList) :
    Numeral.isPart c = true ∨ c ∈ ['-', 'i', 'n', 'f', 'N', 'a'] := by
  have hbody (hc : c ∈ magnitudeText (Binary64.magnitude x)) :
      Numeral.isPart c = true ∨ c ∈ ['-', 'i', 'n', 'f', 'N', 'a'] := by
    have hletters : ∀ c ∈ ['i', 'n', 'f'], c ∈ ['-', 'i', 'n', 'f', 'N', 'a'] := by simp
    exact (mem_magnitudeText hc).imp_right (hletters c)
  cases hnan : x.isNaN with
  | true =>
    have hletters : ∀ c ∈ ['N', 'a', 'N'], c ∈ ['-', 'i', 'n', 'f', 'N', 'a'] := by simp
    rw [plainText, signedText, if_pos ((Binary64.isNaN_iff x).mp hnan)] at h
    exact .inr (hletters c h)
  | false =>
    rw [toList_plainText_eq hnan] at h
    split at h
    · rcases List.mem_cons.mp h with rfl | h
      · exact .inr List.mem_cons_self
      · exact hbody h
    · exact hbody h

theorem minus_mem_plainText {x : Float} (h : x.isNaN = false) :
    '-' ∈ (plainText x).toList ↔ Binary64.isNegative x = true := by
  rw [toList_plainText_eq h]
  split
  · rename_i hnegative
    exact ⟨fun _ => hnegative, fun _ => List.mem_cons_self⟩
  · rename_i hpositive
    exact ⟨fun hminus => absurd hminus (minus_notMem_magnitudeText _),
      fun hnegative => absurd hnegative hpositive⟩

/-- Two numbers that are no NaN have the same plain text only if they are the same number. -/
theorem plainText_inj {x y : Float} (hx : x.isNaN = false) (hy : y.isNaN = false)
    (h : plainText x = plainText y) : x = y := by
  have hle {z : Float} (hz : z.isNaN = false) : Binary64.magnitude z ≤ Binary64.infinity := by
    rw [← Nat.not_lt, ← Binary64.isNaN_iff, hz]
    exact Bool.false_ne_true
  have hsign : Binary64.isNegative x = Binary64.isNegative y := by
    rw [Bool.eq_iff_iff, ← minus_mem_plainText hx, ← minus_mem_plainText hy, h]
  have htext := congrArg String.toList h
  rw [toList_plainText_eq hx, toList_plainText_eq hy, hsign] at htext
  have hbody : magnitudeText (Binary64.magnitude x) = magnitudeText (Binary64.magnitude y) := by
    split at htext
    · exact (List.cons.inj htext).2
    · exact htext
  rw [← Binary64.ofParts_magnitude x, ← Binary64.ofParts_magnitude y, hsign,
    magnitudeText_inj (hle hx) (hle hy) hbody]

end Formula
