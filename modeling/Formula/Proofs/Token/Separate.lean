import Formula.Proofs.Token.Lexeme
import Formula.Proofs.Token.Touching

/-!
# Which tokens of a text read back

Tokens of a text are not always read again from their written form. Numbers that touch are one
number, unknown characters can be the beginning of a function name, and an unknown character at the
end is lost if it is a blank. Nothing else stands in the way.
-/

set_option autoImplicit false

namespace Formula.Token

/-- No name of a function is written from an unknown character on. -/
def Nameless (tokens : List Token) : Prop :=
  ∀ c rest, unknown c :: rest <:+ tokens →
    ∀ f : Elementary, ¬ f.name.toList <+: c :: joined false rest

/-- The tokens are told apart in their written form. -/
structure Separate (tokens : List Token) : Prop where
  apart : tokens.IsChain Apart
  nameless : Nameless tokens
  last : ∀ c, tokens.getLast? = some (unknown c) → Text.isBlank c = false

variable {tokens : List Token} {token : Token} {c : Char}

theorem nameless_nil : Nameless [] := by
  intro c rest h
  simp at h

theorem nameless_unknown_cons : Nameless (unknown c :: tokens) ↔
    (∀ f : Elementary, ¬ f.name.toList <+: c :: joined false tokens) ∧ Nameless tokens := by
  constructor
  · intro h
    refine ⟨h c tokens (List.suffix_refl _), ?_⟩
    intro d rest hrest
    exact h d rest (hrest.trans (List.suffix_cons _ _))
  · rintro ⟨hfirst, htail⟩ d rest hrest
    rcases List.suffix_cons_iff.mp hrest with heq | hrest
    · obtain ⟨hc, rfl⟩ := List.cons.inj heq
      obtain rfl := Token.unknown.inj hc
      exact hfirst
    · exact htail d rest hrest

theorem nameless_cons (h : ∀ c, token ≠ unknown c) :
    Nameless (token :: tokens) ↔ Nameless tokens := by
  constructor
  · intro htokens c rest hrest
    exact htokens c rest (hrest.trans (List.suffix_cons _ _))
  · intro htokens c rest hrest
    rcases List.suffix_cons_iff.mp hrest with heq | hrest
    · exact absurd (List.cons.inj heq).1.symm (h c)
    · exact htokens c rest hrest

theorem Readable.writable (hr : token.Readable) (h : ∀ c, token ≠ unknown c) : token.Writable := by
  cases token with
  | unknown c => exact absurd rfl (h c)
  | _ => exact hr

theorem joined_unknown (expected : Bool) :
    joined expected (unknown c :: tokens) = c :: joined false tokens := by
  change (unknown c).text.toList ++ joined false tokens = _
  rw [toList_text_unknown, List.singleton_append]

/-- An unknown character is read again if and only if no name begins with it. -/
theorem scan_unknown_eq_iff (hr : (unknown c).Readable) {rest : List Char} {tail : List Token} :
    scan (c :: rest) = unknown c :: tail ↔
      (∀ f : Elementary, ¬ f.name.toList <+: c :: rest) ∧ scan rest = tail := by
  obtain ⟨hspace, hpart, hchar⟩ := hr
  have hpart : ¬ Numeral.isPart c = true := Bool.eq_false_iff.mp hpart
  cases hleading : Elementary.leading? (c :: rest) with
  | some f =>
    rw [scan_function hspace hpart hleading]
    constructor
    · intro h
      cases h
    · rintro ⟨hname, _⟩
      exact absurd (Elementary.prefix_of_leading? hleading) (hname f)
  | none =>
    have hname := Elementary.leading?_eq_none_iff.mp hleading
    rw [scan_char hspace hpart hleading, hchar]
    simp [hname]

theorem endsNumeral_joined (hr : token.Readable) (h : token.isNumber = false) (expected : Bool) :
    EndsNumeral (joined expected (token :: tokens)) :=
  endsNumeral_spaced hr h expected _

theorem scan_joined_ne_number (hr : token.Readable) (h : token.isNumber = false) (expected : Bool)
    (value : Float) (tail : List Token) :
    scan (joined expected (token :: tokens)) ≠ number value :: tail := by
  by_cases hunknown : ∃ c, token = unknown c
  · obtain ⟨c, rfl⟩ := hunknown
    obtain ⟨hspace, hpart, hchar⟩ := hr
    have hpart : ¬ Numeral.isPart c = true := Bool.eq_false_iff.mp hpart
    rw [joined_unknown]
    cases hleading : Elementary.leading? (c :: joined false tokens) with
    | some f => simp [scan_function hspace hpart hleading]
    | none => simp [scan_char hspace hpart hleading, hchar]
  · rw [scan_joined_of_not_isNumber (hr.writable (not_exists.mp hunknown)) h]
    intro heq
    obtain rfl := (List.cons.inj heq).1
    cases h

/-- Where the digits of a number have been taken with those before it, no number is left. -/
theorem scan_dropWhile_joined_ne (hr : ∀ token ∈ tokens, token.Readable) (expected : Bool)
    (value : Float) (tail : List Token) :
    scan ((joined expected tokens).dropWhile Numeral.isPart) ≠ number value :: tail := by
  induction tokens generalizing expected with
  | nil => simp [joined, scan]
  | cons token tokens ih =>
    have htoken := hr token List.mem_cons_self
    cases hnumber : token.isNumber with
    | false =>
      rw [(endsNumeral_joined htoken hnumber expected).dropWhile_eq]
      exact scan_joined_ne_number htoken hnumber expected value tail
    | true =>
      obtain ⟨value', rfl⟩ := exists_eq_number hnumber
      rw [joined_number, List.dropWhile_append_of_pos (isPart_of_mem_text htoken).2]
      exact ih (fun t ht => hr t (List.mem_cons_of_mem _ ht)) false

theorem scan_joined_number_eq_iff {value : Float}
    (hr : ∀ token ∈ number value :: tokens, token.Readable) (expected : Bool) :
    scan (joined expected (number value :: tokens)) = number value :: (tokens ++ [endOfInput]) ↔
      (∀ next ∈ tokens.head?, next.isNumber = false) ∧
        scan (joined false tokens) = tokens ++ [endOfInput] := by
  have hvalue : (number value).Writable := hr _ List.mem_cons_self
  have htokens : ∀ token ∈ tokens, token.Readable := fun t ht => hr t (List.mem_cons_of_mem _ ht)
  have hends (h : ∀ next ∈ tokens.head?, next.isNumber = false) :
      EndsNumeral (joined false tokens) := by
    cases tokens with
    | nil =>
      intro c hc
      cases hc
    | cons next tokens =>
      exact endsNumeral_joined (htokens next List.mem_cons_self) (h next rfl) false
  constructor
  · intro h
    obtain ⟨value', hscan⟩ := exists_scan_joined_number hvalue tokens expected
    have hrest := (List.cons.inj (hscan.symm.trans h)).2
    have hhead : ∀ next ∈ tokens.head?, next.isNumber = false := by
      intro next hnext
      cases hnumber : next.isNumber with
      | false => rfl
      | true =>
        obtain ⟨value'', rfl⟩ := exists_eq_number hnumber
        nth_rewrite 2 [List.eq_cons_of_mem_head? hnext] at hrest
        exact absurd hrest (scan_dropWhile_joined_ne htokens false value'' _)
    rw [(hends hhead).dropWhile_eq] at hrest
    exact ⟨hhead, hrest⟩
  · rintro ⟨hhead, hrest⟩
    rw [joined_number, scan_number hvalue (hends hhead), hrest]

theorem scan_joined_eq_iff (hr : ∀ token ∈ tokens, token.Readable) (expected : Bool) :
    scan (joined expected tokens) = tokens ++ [endOfInput] ↔
      tokens.IsChain Apart ∧ Nameless tokens := by
  induction tokens generalizing expected with
  | nil => simp [joined, scan, nameless_nil]
  | cons token tokens ih =>
    have htoken := hr token List.mem_cons_self
    have ih := ih fun t ht => hr t (List.mem_cons_of_mem _ ht)
    rw [List.cons_append, List.isChain_cons]
    cases hnumber : token.isNumber with
    | true =>
      obtain ⟨value, rfl⟩ := exists_eq_number hnumber
      rw [scan_joined_number_eq_iff hr, ih, nameless_cons (fun c => Token.noConfusion)]
      simp [Apart, isNumber, and_assoc]
    | false =>
      have happart : ∀ next ∈ tokens.head?, token.Apart next := fun next _ => .inl hnumber
      by_cases hunknown : ∃ c, token = unknown c
      · obtain ⟨c, rfl⟩ := hunknown
        rw [joined_unknown, scan_unknown_eq_iff htoken, ih, nameless_unknown_cons]
        tauto
      · have hunknown := not_exists.mp hunknown
        rw [scan_joined_of_not_isNumber (htoken.writable hunknown) hnumber,
          nameless_cons hunknown, List.cons_inj_right, ih]
        tauto

theorem Lexes.of_unknown {chars rest : List Char} (h : Lexes chars rest (unknown c)) :
    chars = [c] ∧ (unknown c).Readable := by
  cases h with
  | char hspace hpart _ hdenotes =>
    have hchar := hdenotes.eq_ofChar
    cases hdenotes
    exact ⟨rfl, hspace, hpart, hchar.symm⟩

theorem Segments.eq_append_of_getLast {text : List Char} {lexemes : List Lexeme} {l : Lexeme}
    (h : Segments text lexemes) (hl : lexemes.getLast? = some l) :
    ∃ before spaces, text = before ++ l.chars ++ List.replicate spaces ' ' := by
  induction h with
  | finish => cases hl
  | @lexeme spaces chars rest token lexemes hlexes hrest ih =>
    rcases List.eq_nil_or_concat' lexemes with rfl | ⟨init, last, rfl⟩
    · obtain rfl := Option.some.inj hl
      cases hrest with
      | finish spaces' => exact ⟨_, spaces', (List.append_assoc _ _ _).symm⟩
    · rw [List.getLast?_cons_of_ne_nil (by simp)] at hl
      obtain ⟨before, spaces', htext⟩ := ih hl
      exact ⟨List.replicate spaces ' ' ++ (chars ++ before), spaces', by simp [htext]⟩

/-- A written form does not end with a blank, so none is read at its end. -/
theorem isBlank_of_ofText_spell (h : ofText (spell tokens) = tokens ++ [endOfInput])
    (hlast : tokens.getLast? = some (unknown c)) : Text.isBlank c = false := by
  obtain ⟨lexemes, hsegments⟩ := exists_segments (Text.trimRight (joined true tokens))
  have htokens : lexemes.map Lexeme.token = tokens := by
    rw [ofText, spell, String.toList_ofList, hsegments.scan_eq] at h
    exact List.append_cancel_right h
  rw [← htokens, List.getLast?_map, Option.map_eq_some_iff] at hlast
  obtain ⟨⟨chars, token⟩, hl, rfl⟩ := hlast
  obtain ⟨before, spaces, htext⟩ := hsegments.eq_append_of_getLast hl
  obtain ⟨rest, hlexes⟩ := hsegments.exists_lexes_of_mem (List.mem_of_getLast? hl)
  rw [hlexes.of_unknown.1] at htext
  cases spaces with
  | zero => exact Text.isBlank_of_trimRight_eq_concat (htext.trans (List.append_nil _))
  | succ spaces =>
    rw [List.replicate_succ', ← List.append_assoc] at htext
    exact absurd (Text.isBlank_of_trimRight_eq_concat htext) (by decide)

theorem ofText_spell_iff_separate (hr : ∀ token ∈ tokens, token.Readable) :
    ofText (spell tokens) = tokens ++ [endOfInput] ↔ Separate tokens := by
  constructor
  · intro h
    have hlast (c : Char) (hc : tokens.getLast? = some (unknown c)) : Text.isBlank c = false :=
      isBlank_of_ofText_spell h hc
    rw [ofText_spell_eq_scan_of_last hr hlast, scan_joined_eq_iff hr] at h
    exact ⟨h.1, h.2, hlast⟩
  · intro h
    rw [ofText_spell_eq_scan_of_last hr h.last, scan_joined_eq_iff hr]
    exact ⟨h.apart, h.nameless⟩

/-- The tokens of a text are readable if its numbers are finite. -/
theorem readable_of_mem_ofText {text : String} (h : token ∈ ofText text) (hend : token ≠ endOfInput)
    (hfinite : ∀ value, token = number value → value.isFinite = true) : token.Readable := by
  cases token with
  | number value =>
    obtain ⟨m, hm, rfl⟩ := exists_of_number_mem_scan h
    exact ⟨Binary64.isNegative_ofParts hm, hfinite _ rfl⟩
  | endOfInput => exact absurd rfl hend
  | unknown c =>
    obtain ⟨lexemes, hsegments⟩ := exists_segments text.toList
    rw [ofText, hsegments.scan_eq, List.mem_append, List.mem_map] at h
    rcases h with ⟨⟨chars, token⟩, hl, rfl⟩ | h
    · obtain ⟨rest, hlexes⟩ := hsegments.exists_lexes_of_mem hl
      exact hlexes.of_unknown.2
    · exact absurd (List.mem_singleton.mp h) hend
  | _ => trivial

end Formula.Token
