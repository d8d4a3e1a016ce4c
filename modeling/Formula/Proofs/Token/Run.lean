import Formula.Proofs.Token.Lexer

/-!
# Runs of digits and points

A run of digits and points is worth its longest leading numeral, which is the part before its second
point. So every number of a text has the value of a numeral, or it is zero.
-/

set_option autoImplicit false

namespace Formula.Numeral

/-- The text before the point that comes after the given number of points. It is the whole text if
no more points come. -/
def beforePoint : Nat → List Char → List Char
  | _, [] => []
  | points, c :: rest =>
    if c = '.' then
      match points with
      | 0 => []
      | points + 1 => c :: beforePoint points rest
    else c :: beforePoint points rest

variable {points : Nat} {text front : List Char} {c : Char}

theorem beforePoint_point (points : Nat) (rest : List Char) :
    beforePoint (points + 1) ('.' :: rest) = '.' :: beforePoint points rest := rfl

theorem beforePoint_of_ne (h : c ≠ '.') (points : Nat) (rest : List Char) :
    beforePoint points (c :: rest) = c :: beforePoint points rest := by
  simp only [beforePoint, if_neg h]

theorem beforePoint_prefix_self (points : Nat) (text : List Char) :
    beforePoint points text <+: text := by
  induction text generalizing points with
  | nil => exact List.prefix_refl _
  | cons c rest ih =>
    by_cases hpoint : c = '.'
    · subst hpoint
      cases points with
      | zero => exact List.nil_prefix
      | succ points => exact (List.prefix_cons_inj '.').mpr (ih points)
    · rw [beforePoint_of_ne hpoint]
      exact (List.prefix_cons_inj c).mpr (ih points)

/-- The leading parts of the text with at most so many points are those that end before the next
point. -/
theorem prefix_beforePoint_iff (h : front <+: text) :
    front <+: beforePoint points text ↔ front.count '.' ≤ points := by
  induction text generalizing points front with
  | nil =>
    obtain rfl := List.prefix_nil.mp h
    exact ⟨fun _ => Nat.zero_le _, fun _ => List.nil_prefix⟩
  | cons c rest ih =>
    cases front with
    | nil => exact ⟨fun _ => Nat.zero_le _, fun _ => List.nil_prefix⟩
    | cons d front =>
      obtain ⟨rfl, hfront⟩ := List.cons_prefix_cons.mp h
      by_cases hpoint : d = '.'
      · subst hpoint
        rw [List.count_cons_self]
        cases points with
        | zero => simp [beforePoint]
        | succ points =>
          rw [beforePoint_point, List.prefix_cons_inj, ih hfront, Nat.add_le_add_iff_right]
      · rw [beforePoint_of_ne hpoint, List.prefix_cons_inj, ih hfront,
          List.count_cons_of_ne hpoint]

theorem count_beforePoint_le (points : Nat) (text : List Char) :
    (beforePoint points text).count '.' ≤ points :=
  (prefix_beforePoint_iff (beforePoint_prefix_self points text)).mp (List.prefix_refl _)

theorem isPart_iff : isPart c = true ↔ c.isDigit = true ∨ c = '.' := by
  simp [isPart]

/-- A run without points is made of digits. -/
theorem forall_isDigit_iff (h : ∀ c ∈ text, isPart c = true) :
    (∀ c ∈ text, c.isDigit = true) ↔ text.count '.' = 0 := by
  rw [List.count_eq_zero]
  constructor
  · intro hdigits hpoint
    exact absurd (hdigits '.' hpoint) (by decide)
  · intro hpoint c hc
    refine (isPart_iff.mp (h c hc)).resolve_right ?_
    rintro rfl
    exact hpoint hc

theorem exists_isDigit_iff (h : ∀ c ∈ text, c.isDigit = true) :
    (∃ c ∈ text, c.isDigit = true) ↔ text ≠ [] := by
  constructor
  · rintro ⟨c, hc, _⟩
    exact List.ne_nil_of_mem hc
  · intro hne
    obtain ⟨c, hc⟩ := List.exists_mem_of_ne_nil text hne
    exact ⟨c, hc, h c hc⟩

theorem isSome_value?_digits (h : ∀ c ∈ text, c.isDigit = true) :
    (value? text).isSome = true ↔ text ≠ [] := by
  rw [value?, Option.isSome_map]
  by_cases hne : text = []
  · subst hne
    decide
  · rw [Decimal.decimal?_digits hne h]
    exact ⟨fun _ => hne, fun _ => rfl⟩

theorem isSome_value?_point {whole part : List Char} (h : ∀ c ∈ whole, c.isDigit = true) :
    (value? (whole ++ '.' :: part)).isSome = true ↔
      (∀ c ∈ part, c.isDigit = true) ∧ whole ++ part ≠ [] := by
  obtain ⟨htake, hdrop⟩ := Decimal.span_isDigit_point h part
  simp [value?, decimal?, htake, hdrop, Decidable.imp_iff_not_or]

/-- A run is a numeral if it has at most one point and at least one digit. -/
theorem isSome_value?_iff (h : ∀ c ∈ text, isPart c = true) :
    (value? text).isSome = true ↔ text.count '.' ≤ 1 ∧ ∃ c ∈ text, c.isDigit = true := by
  by_cases hpoint : '.' ∈ text
  · obtain ⟨whole, part, rfl, hfirst⟩ := List.eq_append_cons_of_mem hpoint
    obtain ⟨hwholeParts, hrest⟩ := List.forall_mem_append.mp h
    have hpartParts := (List.forall_mem_cons.mp hrest).2
    have hnone : whole.count '.' = 0 := List.count_eq_zero.mpr hfirst
    have hwhole : ∀ c ∈ whole, c.isDigit = true := (forall_isDigit_iff hwholeParts).mpr hnone
    have hcount : (∀ c ∈ part, c.isDigit = true) ↔ (whole ++ '.' :: part).count '.' ≤ 1 := by
      rw [forall_isDigit_iff hpartParts, List.count_append, hnone, List.count_cons_self]
      omega
    rw [isSome_value?_point hwhole, ← hcount]
    refine and_congr_right fun hpart => ?_
    have hdigit : ('.' : Char).isDigit = false := by decide
    rw [← exists_isDigit_iff (List.forall_mem_append.mpr ⟨hwhole, hpart⟩)]
    simp [hdigit, or_and_right, exists_or]
  · have hnone : text.count '.' = 0 := List.count_eq_zero.mpr hpoint
    have hdigits := (forall_isDigit_iff h).mpr hnone
    rw [isSome_value?_digits hdigits, exists_isDigit_iff hdigits, hnone]
    exact ⟨fun hne => ⟨Nat.zero_le 1, hne⟩, And.right⟩

/-- Parts that are no numerals do not count in the search for the longest one. -/
theorem longestValue?_eq_of_longer {best length : Nat} (hle : best ≤ length)
    (h : ∀ n, best < n → n ≤ length → value? (text.take n) = none) :
    longestValue? text length = longestValue? text best := by
  induction hle with
  | refl => rfl
  | @step length hle ih =>
    rw [longestValue?, h (length + 1) (Nat.lt_succ_of_le hle) (Nat.le_refl _)]
    exact ih fun n hn hlength => h n hn (Nat.le_succ_of_le hlength)

section

variable {run : List Char} (hrun : ∀ c ∈ run, isPart c = true)
include hrun

/-- No numeral at the start of a run goes on beyond its second point. -/
theorem prefix_beforePoint_of_isSome {n : Nat} (h : (value? (run.take n)).isSome = true) :
    run.take n <+: beforePoint 1 run ∧ ∃ c ∈ run.take n, c.isDigit = true := by
  obtain ⟨hcount, hdigit⟩ := (isSome_value?_iff fun c hc => hrun c (List.mem_of_mem_take hc)).mp h
  exact ⟨(prefix_beforePoint_iff (List.take_prefix n run)).mpr hcount, hdigit⟩

theorem value?_beforePoint (h : ∃ c ∈ beforePoint 1 run, c.isDigit = true) :
    value? (beforePoint 1 run) = some (runValue run) := by
  have hfront : beforePoint 1 run <+: run := beforePoint_prefix_self 1 run
  have hpart : ∀ c ∈ beforePoint 1 run, isPart c = true := fun c hc => hrun c (hfront.subset hc)
  obtain ⟨value, hvalue⟩ :=
    Option.isSome_iff_exists.mp ((isSome_value?_iff hpart).mpr ⟨count_beforePoint_le 1 run, h⟩)
  have hlonger (n : Nat) (hlt : (beforePoint 1 run).length < n) (hn : n ≤ run.length) :
      value? (run.take n) = none := by
    rw [← Option.not_isSome_iff_eq_none]
    intro hsome
    have hle := (prefix_beforePoint_of_isSome hrun hsome).1.length_le
    rw [List.length_take, Nat.min_eq_left hn] at hle
    omega
  have hlongest : longestValue? run run.length = some value := by
    rw [longestValue?_eq_of_longer hfront.length_le hlonger]
    apply longestValue?_of_value?
    rwa [← List.prefix_iff_eq_take.mp hfront]
  rw [hvalue, runValue, hlongest]
  rfl

theorem runValue_of_no_digit (h : ∀ c ∈ beforePoint 1 run, c.isDigit = false) :
    runValue run = 0.0 := by
  have hnone (n : Nat) (_ : 0 < n) (_ : n ≤ run.length) : value? (run.take n) = none := by
    rw [← Option.not_isSome_iff_eq_none]
    intro hsome
    obtain ⟨hfront, c, hc, hdigit⟩ := prefix_beforePoint_of_isSome hrun hsome
    rw [h c (hfront.subset hc)] at hdigit
    cases hdigit
  rw [runValue, longestValue?_eq_of_longer (Nat.zero_le _) hnone]
  rfl

end

/-- A run of digits and points has the value of its part before the second point, if that has a
digit, and is zero otherwise. So no number of a text is a NaN or has a sign. -/
theorem runValue_eq :
    (∀ run : List Char, (∀ c ∈ run, isPart c = true) →
      ((∃ c ∈ beforePoint 1 run, c.isDigit = true) →
        value? (beforePoint 1 run) = some (runValue run)) ∧
      ((∀ c ∈ beforePoint 1 run, c.isDigit = false) → runValue run = 0.0)) ∧
    ∀ text value, .number value ∈ Token.ofText text →
      value.isNaN = false ∧ Binary64.isNegative value = false := by
  refine ⟨fun run hrun => ⟨value?_beforePoint hrun, runValue_of_no_digit hrun⟩, ?_⟩
  intro text value h
  obtain ⟨m, hm, rfl⟩ := Token.exists_of_number_mem_scan h
  exact ⟨Binary64.isNaN_ofParts hm, Binary64.isNegative_ofParts hm⟩

/-- The second point ends the numeral, though a digit comes after it. -/
theorem runValue_eq_two_points :
    (∀ c ∈ ['1', '.', '2', '.', '3'], isPart c = true) ∧
      value? ['1', '.', '2'] = some (runValue ['1', '.', '2', '.', '3']) := by
  have hall : ['1', '.', '2', '.', '3'].all isPart = true := by decide
  have hrun := List.all_eq_true.mp hall
  exact ⟨hrun, (runValue_eq.1 _ hrun).1 ⟨'1', by decide, by decide⟩⟩

end Formula.Numeral
