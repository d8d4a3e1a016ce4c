import Formula.Proofs.Token.Spelling

/-!
# Numbers that touch are read as one

The written form of tokens has no more tokens than it was written from. It has fewer if a number is
next to a number, since their digits are then in one run. So tokens read back from their written
form if and only if no two numbers are next to each other.
-/

set_option autoImplicit false

namespace Formula.Token

theorem exists_eq_number {token : Token} (h : token.isNumber = true) :
    ∃ value, token = number value := by
  cases token with
  | number value => exact ⟨value, rfl⟩
  | _ => cases h

/-- A run is read to its end, and what follows goes on after the parts that continue it. -/
theorem scan_run_append {run : List Char} (hne : run ≠ [])
    (hrun : ∀ c ∈ run, Numeral.isPart c = true) (rest : List Char) :
    ∃ value, scan (run ++ rest) = number value :: scan (rest.dropWhile Numeral.isPart) := by
  obtain ⟨c, run, rfl⟩ := List.exists_cons_of_ne_nil hne
  have htail : ∀ d ∈ run, Numeral.isPart d = true := fun d hd =>
    hrun d (List.mem_cons_of_mem _ hd)
  rw [List.cons_append, scan_run (hrun c List.mem_cons_self), List.dropWhile_append_of_pos htail]
  exact ⟨_, rfl⟩

theorem length_scan_dropWhile_le (text : List Char) :
    (scan (text.dropWhile Numeral.isPart)).length ≤ (scan text).length := by
  cases text with
  | nil => exact Nat.le_refl _
  | cons c text =>
    cases hc : Numeral.isPart c with
    | true =>
      rw [List.dropWhile_cons_of_pos hc, scan_run hc, List.length_cons]
      exact Nat.le_succ _
    | false =>
      rw [List.dropWhile_cons_of_neg (by simp [hc])]

variable {value : Float} {tokens : List Token}

theorem isPart_of_mem_text (hw : (number value).Writable) :
    (number value).text.toList ≠ [] ∧
      ∀ c ∈ (number value).text.toList, Numeral.isPart c = true := by
  obtain ⟨m, hfinite, rfl⟩ := exists_of_writable hw
  rw [text, toList_plainText hfinite]
  exact ⟨Decimal.plain_ne_nil _, fun c hc => Decimal.isPart_of_mem_plain hc⟩

theorem joined_number (expected : Bool) :
    joined expected (number value :: tokens) =
      (number value).text.toList ++ joined false tokens := rfl

/-- A number takes the digits of the numbers that touch it. -/
theorem exists_scan_joined_number (hw : (number value).Writable) (tokens : List Token)
    (expected : Bool) : ∃ value', scan (joined expected (number value :: tokens)) =
      number value' :: scan ((joined false tokens).dropWhile Numeral.isPart) := by
  obtain ⟨hne, hparts⟩ := isPart_of_mem_text hw
  rw [joined_number]
  exact scan_run_append hne hparts _

theorem scan_joined_of_not_isNumber {token : Token} (hw : token.Writable)
    (h : token.isNumber = false) (expected : Bool) :
    scan (joined expected (token :: tokens)) =
      token :: scan (joined (token.expectsOperand expected) tokens) := by
  apply scan_spaced_append hw
  intro hnumber
  rw [h] at hnumber
  cases hnumber

theorem length_scan_joined_le (hw : ∀ token ∈ tokens, token.Writable) (expected : Bool) :
    (scan (joined expected tokens)).length ≤ tokens.length + 1 := by
  induction tokens generalizing expected with
  | nil => simp [joined, scan]
  | cons token rest ih =>
    have hrest : ∀ t ∈ rest, t.Writable := fun t ht => hw t (List.mem_cons_of_mem _ ht)
    have htoken : token.Writable := hw token List.mem_cons_self
    cases hnumber : token.isNumber with
    | false =>
      rw [scan_joined_of_not_isNumber htoken hnumber, List.length_cons, List.length_cons]
      exact Nat.succ_le_succ (ih hrest _)
    | true =>
      obtain ⟨value, rfl⟩ := exists_eq_number hnumber
      obtain ⟨value', hscan⟩ := exists_scan_joined_number htoken rest expected
      rw [hscan, List.length_cons, List.length_cons]
      exact Nat.succ_le_succ (Nat.le_trans (length_scan_dropWhile_le _) (ih hrest _))

/-- Where the digits of a number have been taken before it, nothing is left of it. -/
theorem length_scan_dropWhile_number_le
    (hw : ∀ token ∈ number value :: tokens, token.Writable) (expected : Bool) :
    (scan ((joined expected (number value :: tokens)).dropWhile Numeral.isPart)).length ≤
      tokens.length + 1 := by
  have hparts := (isPart_of_mem_text (hw _ List.mem_cons_self)).2
  rw [joined_number, List.dropWhile_append_of_pos hparts]
  exact Nat.le_trans (length_scan_dropWhile_le _)
    (length_scan_joined_le (fun t ht => hw t (List.mem_cons_of_mem _ ht)) false)

/-- If no token is lost, no two numbers have been read as one. -/
theorem isChain_apart_of_length (hw : ∀ token ∈ tokens, token.Writable) (expected : Bool)
    (h : tokens.length + 1 ≤ (scan (joined expected tokens)).length) :
    tokens.IsChain Apart := by
  induction tokens generalizing expected with
  | nil => exact .nil
  | cons token rest ih =>
    have hrest : ∀ t ∈ rest, t.Writable := fun t ht => hw t (List.mem_cons_of_mem _ ht)
    have htoken : token.Writable := hw token List.mem_cons_self
    rw [List.length_cons] at h
    cases hnumber : token.isNumber with
    | false =>
      rw [scan_joined_of_not_isNumber htoken hnumber, List.length_cons] at h
      have hchain := ih hrest _ (Nat.le_of_succ_le_succ h)
      exact List.isChain_cons.mpr ⟨fun next _ => .inl hnumber, hchain⟩
    | true =>
      obtain ⟨value, rfl⟩ := exists_eq_number hnumber
      obtain ⟨value', hscan⟩ := exists_scan_joined_number htoken rest expected
      rw [hscan, List.length_cons] at h
      have hle := length_scan_dropWhile_le (joined false rest)
      refine List.isChain_cons.mpr ⟨?_, ih hrest false (by omega)⟩
      intro next hnext
      right
      cases hnumber' : next.isNumber with
      | false => rfl
      | true =>
        obtain ⟨value'', rfl⟩ := exists_eq_number hnumber'
        rw [List.eq_cons_of_mem_head? hnext] at hrest h
        have hbound := length_scan_dropWhile_number_le hrest false
        rw [List.length_cons] at h
        omega

/-- Tokens that have texts are read back from their written form if and only if no number is next
to a number. -/
theorem ofText_spell_iff (hw : ∀ token ∈ tokens, token.Writable) :
    ofText (spell tokens) = tokens ++ [endOfInput] ↔ tokens.IsChain Apart := by
  constructor
  · intro h
    rw [ofText_spell_eq_scan hw] at h
    apply isChain_apart_of_length hw true
    rw [h, List.length_append, List.length_singleton]
  · intro hapart
    exact ofText_spell ⟨hw, hapart⟩

theorem ofText_spell_run_together :
    let tokens : List Token := [letter .x, function .arcSine, number 2.5, letter .e, number 3,
      operator .subtract, number 3, bar, operator .subtract]
    (∀ token ∈ tokens, token.Writable) ∧ tokens.IsChain Apart ∧
      ofText (spell tokens) = tokens ++ [endOfInput] := by
  intro tokens
  have hfirst : (number 2.5).Writable := ⟨rfl, rfl⟩
  have hsecond : (number 3).Writable := ⟨rfl, rfl⟩
  have hw : ∀ token ∈ tokens, token.Writable := by
    simp only [tokens, List.forall_mem_cons]
    exact ⟨trivial, trivial, hfirst, trivial, hsecond, trivial, hsecond, trivial, trivial,
      List.forall_mem_nil _⟩
  have hapart : tokens.IsChain Apart := by
    simp [tokens, Apart, isNumber]
  exact ⟨hw, hapart, (ofText_spell_iff hw).mpr hapart⟩

end Formula.Token
