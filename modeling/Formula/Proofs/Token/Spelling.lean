import Mathlib.Data.List.Chain
import Formula.Token.Text
import Formula.Proofs.Text.Blank
import Formula.Proofs.Token.Lexer

/-!
# Spelled tokens read back

The written form of tokens has the tokens that it was written from, if no two numbers are next
to each other. The blanks between the tokens are spaces, and the trimmed ones at the end stand
for nothing.
-/

set_option autoImplicit false

namespace Formula

namespace Text

theorem isBlank_of_isPart {c : Char} (h : Numeral.isPart c = true) : isBlank c = false := by
  have hrange : 46 ≤ c.toNat ∧ c.toNat ≤ 57 := by
    rcases Bool.or_eq_true_iff.mp h with hdigit | hpoint
    · obtain ⟨hge, hle⟩ := Bool.and_eq_true_iff.mp hdigit
      have hge : 48 ≤ c.toNat := of_decide_eq_true hge
      have hle : c.toNat ≤ 57 := of_decide_eq_true hle
      omega
    · rw [of_decide_eq_true hpoint]
      decide
  rw [isBlank, List.any_eq_false]
  simp only [blankRanges, List.mem_cons, List.not_mem_nil, or_false]
  rintro range hrange'
  simp only [Bool.and_eq_true, decide_eq_true_eq]
  rcases hrange' with rfl | rfl | rfl | rfl | rfl | rfl | rfl | rfl | rfl | rfl <;> omega

end Text

namespace Token

def isNumber : Token → Bool
  | number _ => true
  | _ => false

/-- The token has a text that it is read from again. -/
def Writable : Token → Prop
  | number value => Binary64.isNegative value = false ∧ value.isFinite = true
  | endOfInput | unknown _ => False
  | _ => True

/-- The token is read from some text, its own if that stands alone. -/
def Readable : Token → Prop
  | unknown c => c ≠ ' ' ∧ Numeral.isPart c = false ∧ ofChar c = unknown c
  | token => token.Writable

def Apart (left right : Token) : Prop :=
  left.isNumber = false ∨ right.isNumber = false

/-- What follows does not continue a numeral. -/
def EndsNumeral (rest : List Char) : Prop :=
  ∀ c ∈ rest.head?, Numeral.isPart c = false

theorem EndsNumeral.takeWhile_eq {rest : List Char} (h : EndsNumeral rest) :
    rest.takeWhile Numeral.isPart = [] := by
  cases rest with
  | nil => rfl
  | cons c rest =>
    have hc : Numeral.isPart c = false := h c rfl
    rw [List.takeWhile_cons_of_neg (by simp [hc])]

theorem EndsNumeral.dropWhile_eq {rest : List Char} (h : EndsNumeral rest) :
    rest.dropWhile Numeral.isPart = rest := by
  cases rest with
  | nil => rfl
  | cons c rest =>
    have hc : Numeral.isPart c = false := h c rfl
    rw [List.dropWhile_cons_of_neg (by simp [hc])]

theorem Writable.readable {token : Token} (h : token.Writable) : token.Readable := by
  cases token with
  | unknown c => exact h.elim
  | _ => exact h

theorem exists_of_writable {value : Float} (hw : (number value).Writable) :
    ∃ m < Binary64.infinity, value = Binary64.ofParts false m := by
  refine ⟨Binary64.magnitude value, (Binary64.isFinite_iff value).mp hw.2, ?_⟩
  rw [← hw.1, Binary64.ofParts_magnitude]

theorem scan_number {value : Float} (hw : (number value).Writable) {rest : List Char}
    (h : EndsNumeral rest) :
    scan ((number value).text.toList ++ rest) = number value :: scan rest := by
  obtain ⟨m, hfinite, rfl⟩ := exists_of_writable hw
  have hpart (c : Char) (hc : c ∈ (Decimal.shortest m).plain) : Numeral.isPart c = true :=
    Decimal.isPart_of_mem_plain hc
  have hrun := runValue_plain_shortest hfinite
  rw [text, toList_plainText hfinite]
  obtain ⟨c, run, hplain⟩ := List.exists_cons_of_ne_nil (Decimal.shortest m).plain_ne_nil
  rw [hplain] at hpart hrun
  have hrest : ∀ d ∈ run, Numeral.isPart d = true := fun d hd =>
    hpart d (List.mem_cons_of_mem _ hd)
  rw [hplain, List.cons_append, scan_run (hpart c List.mem_cons_self),
    List.takeWhile_append_of_pos hrest, List.dropWhile_append_of_pos hrest, h.takeWhile_eq,
    h.dropWhile_eq, List.append_nil, hrun]

theorem scan_symbol {c : Char} (hspace : ¬ c = ' ') (hpart : ¬ Numeral.isPart c = true)
    (hname : c ∉ ['a', 'c', 'l', 's', 't']) (rest : List Char) :
    scan (c :: rest) = ofChar c :: scan rest :=
  scan_char hspace hpart (Elementary.leading?_eq_none hname rest)

theorem scan_name (f : Elementary) (rest : List Char) :
    scan (f.name.toList ++ rest) = function f :: scan rest := by
  obtain ⟨c, tail, hname, hspace, hpart⟩ : ∃ c tail, f.name.toList = c :: tail ∧
      ¬ c = ' ' ∧ ¬ Numeral.isPart c = true := by
    cases f <;> exact ⟨_, _, rfl, by decide, by decide⟩
  have hlength : f.name.length - 1 = tail.length := by
    rw [← String.length_toList, hname]
    rfl
  have hleading := f.leading?_name_append rest
  rw [hname, List.cons_append] at hleading ⊢
  rw [scan_function hspace hpart hleading, hlength, List.drop_left]

theorem scan_text_append {token : Token} (hw : token.Writable) {rest : List Char}
    (h : token.isNumber = true → EndsNumeral rest) :
    scan (token.text.toList ++ rest) = token :: scan rest := by
  cases token with
  | number value => exact scan_number hw (h rfl)
  | letter v => cases v <;> exact scan_symbol (by decide) (by decide) (by decide) rest
  | operator op => cases op <;> exact scan_symbol (by decide) (by decide) (by decide) rest
  | function f => exact scan_name f rest
  | openParen => exact scan_symbol (by decide) (by decide) (by decide) rest
  | closeParen => exact scan_symbol (by decide) (by decide) (by decide) rest
  | bar => exact scan_symbol (by decide) (by decide) (by decide) rest
  | endOfInput => exact absurd hw id
  | unknown c => exact absurd hw id

theorem toList_text_unknown (c : Char) : (unknown c).text.toList = [c] :=
  String.toList_singleton c

theorem toList_spaced (expected : Bool) (token : Token) :
    (token.spaced expected).toList = token.text.toList ∨
      token.isNumber = false ∧
        (token.spaced expected).toList = ' ' :: (token.text.toList ++ [' ']) := by
  unfold spaced
  split
  · exact .inl rfl
  · right
    simp [isNumber]
  · exact .inl rfl

theorem scan_spaced_append {token : Token} (hw : token.Writable) (expected : Bool)
    {rest : List Char} (h : token.isNumber = true → EndsNumeral rest) :
    scan ((token.spaced expected).toList ++ rest) = token :: scan rest := by
  rcases token.toList_spaced expected with htext | ⟨hnumber, htext⟩
  · rw [htext, scan_text_append hw h]
  · rw [htext, List.cons_append, scan_space, List.append_assoc, scan_text_append hw,
      List.singleton_append, scan_space]
    intro htrue
    exact absurd htrue (by simp [hnumber])

theorem endsNumeral_spaced {token : Token} (hr : token.Readable) (hnumber : token.isNumber = false)
    (expected : Bool) (rest : List Char) :
    EndsNumeral ((token.spaced expected).toList ++ rest) := by
  obtain ⟨c, tail, hhead, hc⟩ : ∃ c tail, token.text.toList = c :: tail ∧
      Numeral.isPart c = false := by
    cases token with
    | number value => cases hnumber
    | letter v => cases v <;> exact ⟨_, _, rfl, by decide⟩
    | operator op => cases op <;> exact ⟨_, _, rfl, by decide⟩
    | function f => cases f <;> exact ⟨_, _, rfl, by decide⟩
    | endOfInput => exact absurd hr id
    | unknown c => exact ⟨c, [], toList_text_unknown c, hr.2.1⟩
    | _ => exact ⟨_, _, rfl, by decide⟩
  rcases token.toList_spaced expected with htext | ⟨_, htext⟩
  · rw [htext, hhead]
    intro d hd
    obtain rfl := Option.some.inj hd
    exact hc
  · rw [htext]
    intro d hd
    obtain rfl := Option.some.inj hd
    decide

theorem scan_joined {tokens : List Token} (hw : ∀ token ∈ tokens, token.Writable)
    (hapart : tokens.IsChain Apart) (expected : Bool) :
    scan (joined expected tokens) = tokens ++ [endOfInput] := by
  induction tokens generalizing expected with
  | nil => simp [joined, scan]
  | cons token rest ih =>
    have hrest := ih (fun t ht => hw t (List.mem_cons_of_mem _ ht)) hapart.tail
      (token.expectsOperand expected)
    rw [joined, scan_spaced_append (hw token List.mem_cons_self), hrest, List.cons_append]
    -- Only a number can be continued by what follows it, and no number follows a number.
    intro hnumber
    cases rest with
    | nil =>
      intro c hc
      cases hc
    | cons next rest =>
      have hnext : next.isNumber = false := by
        rcases hapart.rel with htoken | hnext
        · exact absurd hnumber (by simp [htoken])
        · exact hnext
      exact endsNumeral_spaced (hw next (by simp)).readable hnext _ _

theorem isBlank_of_mem_text {token : Token} (hw : token.Writable) {c : Char}
    (h : c ∈ token.text.toList) : Text.isBlank c = false := by
  have hnone (hall : token.text.toList.all (fun c => !Text.isBlank c) = true) :
      Text.isBlank c = false := by
    simpa using List.all_eq_true.mp hall c h
  cases token with
  | number value =>
    obtain ⟨m, hfinite, rfl⟩ := exists_of_writable hw
    rw [text, toList_plainText hfinite] at h
    exact Text.isBlank_of_isPart (Decimal.isPart_of_mem_plain h)
  | letter v => exact hnone (by cases v <;> rfl)
  | operator op => exact hnone (by cases op <;> rfl)
  | function f => exact hnone (by cases f <;> rfl)
  | endOfInput => exact absurd hw id
  | unknown c => exact absurd hw id
  | _ => exact hnone rfl

theorem text_ne_nil {token : Token} (hw : token.Writable) : token.text.toList ≠ [] := by
  cases token with
  | number value =>
    obtain ⟨m, hfinite, rfl⟩ := exists_of_writable hw
    rw [text, toList_plainText hfinite]
    exact Decimal.plain_ne_nil _
  | letter v => cases v <;> exact List.cons_ne_nil _ _
  | operator op => cases op <;> exact List.cons_ne_nil _ _
  | function f => cases f <;> exact List.cons_ne_nil _ _
  | endOfInput => exact absurd hw id
  | unknown c => exact absurd hw id
  | _ => exact List.cons_ne_nil _ _

/-- Only spaces are written after the last character of a token that is no blank. -/
theorem exists_spaced_eq_append {token : Token} (hr : token.Readable)
    (hblank : ∀ c, token = unknown c → Text.isBlank c = false) (expected : Bool) :
    ∃ body c spaces, (token.spaced expected).toList = body ++ [c] ++ spaces ∧
      Text.isBlank c = false ∧ ∀ d ∈ spaces, d = ' ' := by
  have htext : ∃ body c, token.text.toList = body ++ [c] ∧ Text.isBlank c = false := by
    have hwritable (hw : token.Writable) :
        ∃ body c, token.text.toList = body ++ [c] ∧ Text.isBlank c = false := by
      have hlast := List.dropLast_concat_getLast (text_ne_nil hw)
      exact ⟨_, _, hlast.symm, isBlank_of_mem_text hw (List.getLast_mem _)⟩
    cases token with
    | unknown c => exact ⟨[], c, toList_text_unknown c, hblank c rfl⟩
    | _ => exact hwritable hr
  obtain ⟨body, c, hbody, hc⟩ := htext
  rcases token.toList_spaced expected with hspaced | ⟨_, hspaced⟩
  · exact ⟨body, c, [], by rw [hspaced, hbody, List.append_nil], hc, List.forall_mem_nil _⟩
  · refine ⟨' ' :: body, c, [' '], ?_, hc, fun d hd => List.mem_singleton.mp hd⟩
    rw [hspaced, hbody, List.cons_append, List.cons_append]

theorem exists_joined_concat (expected : Bool) (tokens : List Token) (last : Token) :
    ∃ before, joined expected (tokens ++ [last]) =
      joined expected tokens ++ (last.spaced before).toList := by
  induction tokens generalizing expected with
  | nil => exact ⟨expected, by simp [joined]⟩
  | cons token tokens ih =>
    obtain ⟨before, hjoined⟩ := ih (token.expectsOperand expected)
    exact ⟨before, by rw [List.cons_append, joined, hjoined, joined, List.append_assoc]⟩

/-- Unless the last token is a blank, what is trimmed at the end of a written form stands for
nothing. -/
theorem ofText_spell_eq_scan_of_last {tokens : List Token}
    (hr : ∀ token ∈ tokens, token.Readable)
    (hlast : ∀ c, tokens.getLast? = some (unknown c) → Text.isBlank c = false) :
    ofText (spell tokens) = scan (joined true tokens) := by
  rw [ofText, spell, String.toList_ofList]
  rcases tokens.eq_nil_or_concat' with rfl | ⟨tokens, token, rfl⟩
  · rfl
  · have hblank (c : Char) (h : token = unknown c) : Text.isBlank c = false :=
      hlast c (by rw [List.getLast?_concat, h])
    obtain ⟨before, hjoined⟩ := exists_joined_concat true tokens token
    obtain ⟨body, c, spaces, hspaced, hc, hspaces⟩ :=
      exists_spaced_eq_append (hr token (by simp)) hblank before
    have hblanks : ∀ d ∈ spaces, Text.isBlank d = true := by
      intro d hd
      rw [hspaces d hd]
      decide
    rw [hjoined, hspaced, ← List.append_assoc, ← List.append_assoc, Text.trimRight,
      Text.dropRightWhile_append hblanks, Text.dropRightWhile_concat hc,
      scan_append_spaces _ hspaces]

/-- The tokens have texts, and no two numbers are next to each other. -/
structure Spellable (tokens : List Token) : Prop where
  writable : ∀ token ∈ tokens, token.Writable
  apart : tokens.IsChain Apart

theorem spellable_nil : Spellable [] :=
  ⟨List.forall_mem_nil _, .nil⟩

theorem spellable_singleton {token : Token} (h : token.Writable) : Spellable [token] :=
  ⟨fun _ hmem => List.mem_singleton.mp hmem ▸ h, .singleton token⟩

/-- A token that is no number can stand between any two. -/
theorem Spellable.insert {token : Token} {left right : List Token} (hleft : Spellable left)
    (hright : Spellable right) (hw : token.Writable) (h : token.isNumber = false) :
    Spellable (left ++ token :: right) := by
  constructor
  · intro t ht
    rcases List.mem_append.mp ht with ht | ht
    · exact hleft.writable t ht
    · rcases List.mem_cons.mp ht with rfl | ht
      · exact hw
      · exact hright.writable t ht
  · refine List.isChain_append.mpr ⟨hleft.apart, List.isChain_cons.mpr ⟨?_, hright.apart⟩, ?_⟩
    · intro next _
      exact .inl h
    · intro last _ next hnext
      obtain rfl := Option.some.inj hnext
      exact .inr h

/-- The blanks that are trimmed at the end of a written form stand for nothing. -/
theorem ofText_spell_eq_scan {tokens : List Token} (hw : ∀ token ∈ tokens, token.Writable) :
    ofText (spell tokens) = scan (joined true tokens) := by
  apply ofText_spell_eq_scan_of_last fun token htoken => (hw token htoken).readable
  intro c hc
  exact (hw _ (List.mem_of_mem_getLast? hc)).elim

theorem ofText_spell {tokens : List Token} (h : Spellable tokens) :
    ofText (spell tokens) = tokens ++ [endOfInput] := by
  rw [ofText_spell_eq_scan h.writable, scan_joined h.writable h.apart]

end Token
end Formula
