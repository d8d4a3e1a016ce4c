import Formula.Token.Lexer
import Formula.Proofs.Decimal.Plain

/-!
# Lexemes

The tokens of a text one lexeme after the other. A space ends every lexeme, so the tokens on
both sides of it do not depend on each other.
-/

set_option autoImplicit false

namespace Formula

theorem isPrefixOf_append_space {name : List Char} (h : ' ' ∉ name) (text rest : List Char) :
    name.isPrefixOf (text ++ ' ' :: rest) = name.isPrefixOf text := by
  induction name generalizing text with
  | nil => simp
  | cons c name ih =>
    rw [List.mem_cons, not_or] at h
    cases text with
    | nil => simp [List.isPrefixOf, Ne.symm h.1]
    | cons d text => simp [List.isPrefixOf, ih h.2]

namespace Elementary

theorem space_notMem_name (f : Elementary) : ' ' ∉ f.name.toList := by
  cases f <;> decide

theorem leading?_append_space (text rest : List Char) :
    leading? (text ++ ' ' :: rest) = leading? text := by
  unfold leading?
  congr 1
  funext f
  exact isPrefixOf_append_space f.space_notMem_name text rest

theorem prefix_of_leading? {f : Elementary} {text : List Char} (h : leading? text = some f) :
    f.name.toList <+: text := by
  unfold leading? at h
  have hfound := List.find?_some h
  exact List.isPrefixOf_iff_prefix.mp hfound

theorem length_name_le {f : Elementary} {text : List Char} (h : leading? text = some f) :
    f.name.length ≤ text.length := by
  have hle := (prefix_of_leading? h).length_le
  rwa [String.length_toList] at hle

/-- No name of a function is the beginning of another one's. -/
theorem leading?_name_append (f : Elementary) (rest : List Char) :
    leading? (f.name.toList ++ rest) = some f := by
  cases f <;> simp [leading?, all, name, List.isPrefixOf]

theorem leading?_eq_none {c : Char} (h : c ∉ ['a', 'c', 'l', 's', 't']) (rest : List Char) :
    leading? (c :: rest) = none := by
  simp only [List.mem_cons, List.not_mem_nil, or_false, not_or] at h
  obtain ⟨ha, hc, hl, hs, ht⟩ := h
  simp [leading?, all, name, List.isPrefixOf, Ne.symm ha, Ne.symm hc, Ne.symm hl, Ne.symm hs,
    Ne.symm ht]

end Elementary

namespace Token

theorem scan_space (rest : List Char) : scan (' ' :: rest) = scan rest := by
  rw [scan, if_pos rfl]

theorem scan_run {c : Char} (h : Numeral.isPart c = true) (rest : List Char) :
    scan (c :: rest) = number (Numeral.runValue (c :: rest.takeWhile Numeral.isPart)) ::
      scan (rest.dropWhile Numeral.isPart) := by
  have hspace : c ≠ ' ' := by
    rintro rfl
    exact absurd h (by decide)
  rw [scan, if_neg hspace, if_pos h]

section

variable {c : Char} (hspace : ¬ c = ' ') (hpart : ¬ Numeral.isPart c = true)
include hspace hpart

theorem scan_function {f : Elementary} {rest : List Char}
    (h : Elementary.leading? (c :: rest) = some f) :
    scan (c :: rest) = function f :: scan (rest.drop (f.name.length - 1)) := by
  rw [scan, if_neg hspace, if_neg hpart, h]

theorem scan_char {rest : List Char} (h : Elementary.leading? (c :: rest) = none) :
    scan (c :: rest) = ofChar c :: scan rest := by
  rw [scan, if_neg hspace, if_neg hpart, h]

end

theorem exists_scan_eq_append (text : List Char) :
    ∃ tokens, scan text = tokens ++ [endOfInput] := by
  induction text using scan.induct with
  | case1 => exact ⟨[], by simp [scan]⟩
  | case2 rest ih => rwa [scan_space]
  | case3 c rest _ hpart ih =>
    obtain ⟨tokens, htokens⟩ := ih
    exact ⟨_ :: tokens, by rw [scan_run hpart, htokens, List.cons_append]⟩
  | case4 c rest hspace hpart f hf ih =>
    obtain ⟨tokens, htokens⟩ := ih
    exact ⟨_ :: tokens, by rw [scan_function hspace hpart hf, htokens, List.cons_append]⟩
  | case5 c rest hspace hpart hf ih =>
    obtain ⟨tokens, htokens⟩ := ih
    exact ⟨_ :: tokens, by rw [scan_char hspace hpart hf, htokens, List.cons_append]⟩

theorem scan_ne_nil (text : List Char) : scan text ≠ [] := by
  obtain ⟨tokens, htokens⟩ := exists_scan_eq_append text
  rw [htokens]
  exact List.append_ne_nil_of_right_ne_nil _ (List.cons_ne_nil _ _)

theorem takeWhile_append_space (text rest : List Char) :
    (text ++ ' ' :: rest).takeWhile Numeral.isPart = text.takeWhile Numeral.isPart := by
  induction text with
  | nil => rfl
  | cons c text ih =>
    rw [List.cons_append, List.takeWhile_cons, List.takeWhile_cons, ih]

theorem dropWhile_append_space (text rest : List Char) :
    (text ++ ' ' :: rest).dropWhile Numeral.isPart =
      text.dropWhile Numeral.isPart ++ ' ' :: rest := by
  induction text with
  | nil => rfl
  | cons c text ih =>
    rw [List.cons_append, List.dropWhile_cons, List.dropWhile_cons, ih]
    split <;> rfl

/-- A space separates the tokens before it from those after it. -/
theorem scan_append_space (text rest : List Char) :
    scan (text ++ ' ' :: rest) = (scan text).dropLast ++ scan rest := by
  induction text using scan.induct with
  | case1 => simp [scan]
  | case2 text ih => rw [List.cons_append, scan_space, scan_space, ih]
  | case3 c text _ hpart ih =>
    rw [List.cons_append, scan_run hpart, scan_run hpart, takeWhile_append_space,
      dropWhile_append_space, ih, List.dropLast_cons_of_ne_nil (scan_ne_nil _), List.cons_append]
  | case4 c text hspace hpart f hf ih =>
    have hf' : Elementary.leading? (c :: (text ++ ' ' :: rest)) = some f :=
      (Elementary.leading?_append_space (c :: text) rest).trans hf
    have hlength := Elementary.length_name_le hf
    rw [List.length_cons] at hlength
    rw [List.cons_append, scan_function hspace hpart hf', scan_function hspace hpart hf,
      List.drop_append_of_le_length (by omega), ih,
      List.dropLast_cons_of_ne_nil (scan_ne_nil _), List.cons_append]
  | case5 c text hspace hpart hf ih =>
    have hf' : Elementary.leading? (c :: (text ++ ' ' :: rest)) = none :=
      (Elementary.leading?_append_space (c :: text) rest).trans hf
    rw [List.cons_append, scan_char hspace hpart hf', scan_char hspace hpart hf, ih,
      List.dropLast_cons_of_ne_nil (scan_ne_nil _), List.cons_append]

theorem scan_spaces {spaces : List Char} (h : ∀ c ∈ spaces, c = ' ') :
    scan spaces = [endOfInput] := by
  induction spaces with
  | nil => simp [scan]
  | cons c spaces ih =>
    obtain rfl := h c List.mem_cons_self
    rw [scan_space]
    exact ih fun c hc => h c (List.mem_cons_of_mem _ hc)

theorem scan_append_spaces (text : List Char) {spaces : List Char} (h : ∀ c ∈ spaces, c = ' ') :
    scan (text ++ spaces) = scan text := by
  cases spaces with
  | nil => rw [List.append_nil]
  | cons c spaces =>
    obtain rfl := h c List.mem_cons_self
    obtain ⟨tokens, htokens⟩ := exists_scan_eq_append text
    rw [scan_append_space, scan_spaces fun c hc => h c (List.mem_cons_of_mem _ hc), htokens,
      List.dropLast_concat]

theorem ofChar_ne_number (c : Char) (value : Float) : ofChar c ≠ number value := by
  unfold ofChar
  split
  · exact Token.noConfusion
  · exact Token.noConfusion
  · split <;> exact Token.noConfusion

/-- What is read as a number has no sign and is no NaN. -/
theorem exists_of_number_mem_scan {text : List Char} {value : Float}
    (h : number value ∈ scan text) : ∃ m ≤ Binary64.infinity, value = Binary64.ofParts false m := by
  induction text using scan.induct with
  | case1 => simp [scan] at h
  | case2 text ih => exact ih (scan_space text ▸ h)
  | case3 c text _ hpart ih =>
    rw [scan_run hpart] at h
    rcases List.mem_cons.mp h with h | h
    · obtain rfl := Token.number.inj h
      exact Numeral.exists_runValue _
    · exact ih h
  | case4 c text hspace hpart f hf ih =>
    rw [scan_function hspace hpart hf] at h
    rcases List.mem_cons.mp h with h | h
    · cases h
    · exact ih h
  | case5 c text hspace hpart hf ih =>
    rw [scan_char hspace hpart hf] at h
    rcases List.mem_cons.mp h with h | h
    · exact absurd h.symm (ofChar_ne_number c value)
    · exact ih h

/-- The tokens before a space are those of the text before it, and they go on with the tokens of the
text after it. -/
theorem ofText_append_space (before after : String) :
    ∃ tokens, ofText before = tokens ++ [endOfInput] ∧
      ofText (before ++ " " ++ after) = tokens ++ ofText after := by
  obtain ⟨tokens, htokens⟩ := exists_scan_eq_append before.toList
  have htext : (before ++ " " ++ after).toList = before.toList ++ ' ' :: after.toList := by simp
  refine ⟨tokens, htokens, ?_⟩
  rw [ofText, htext, scan_append_space, htokens, List.dropLast_concat]
  rfl

/-- A space in a name or in a numeral cuts it off. -/
theorem ofText_append_space_cut_off :
    ofText "co" = [unknown 'c', unknown 'o', endOfInput] ∧
      ofText "s.5" = [unknown 's', number 0.5, endOfInput] ∧
      ofText "co s.5" = [unknown 'c', unknown 'o', unknown 's', number 0.5, endOfInput] := by
  have hbefore : ofText "co" = [unknown 'c', unknown 'o'] ++ [endOfInput] := by decide +kernel
  have hafter : ofText "s.5" = [unknown 's', number 0.5, endOfInput] := by decide +kernel
  obtain ⟨tokens, htokens, hboth⟩ := ofText_append_space "co" "s.5"
  rw [← List.append_cancel_right (hbefore.symm.trans htokens), hafter] at hboth
  exact ⟨hbefore, hafter, hboth⟩

end Token
end Formula
