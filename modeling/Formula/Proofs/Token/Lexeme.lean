import Formula.Proofs.Token.Spelling

/-!
# The lexemes of a text

A text is divided into lexemes with spaces around them. The text from the start of a lexeme on
decides where the lexeme ends and which token it gives. There is one such division of every text,
and the tokens of the text are those of its lexemes.
-/

set_option autoImplicit false

namespace Formula

namespace Elementary

theorem leading?_eq_none_iff {text : List Char} :
    leading? text = none ↔ ∀ f : Elementary, ¬ f.name.toList <+: text := by
  simp only [leading?, List.find?_eq_none, List.isPrefixOf_iff_prefix]
  exact ⟨fun h f => h f f.mem_all, fun h f _ => h f⟩

theorem name_append_drop {f : Elementary} {c : Char} {rest : List Char}
    (h : leading? (c :: rest) = some f) :
    f.name.toList ++ rest.drop (f.name.length - 1) = c :: rest := by
  have hlength : f.name.toList.length = f.name.length - 1 + 1 := by
    cases f <;> rfl
  have hdrop := List.prefix_iff_eq_append.mp (prefix_of_leading? h)
  rwa [hlength, List.drop_succ_cons] at hdrop

end Elementary

namespace Token

/-- The token of a character that is a lexeme by itself. -/
inductive Denotes : Char → Token → Prop where
  | letter (v : Letter) : Denotes v.symbol (letter v)
  | operator (op : Operator) : Denotes op.symbol (operator op)
  | openParen : Denotes '(' openParen
  | closeParen : Denotes ')' closeParen
  | bar : Denotes '|' bar
  | unknown {c : Char} (hletter : ∀ v : Letter, v.symbol ≠ c)
      (hoperator : ∀ op : Operator, op.symbol ≠ c) (hbracket : c ∉ ['(', ')', '|']) :
      Denotes c (unknown c)

/-- The characters of a lexeme that starts a text, the text after it, and its token. The longest run
of digits and points is a lexeme, or else the name of a function, or else a single character. -/
inductive Lexes : List Char → List Char → Token → Prop where
  | run {run rest : List Char} (hne : run ≠ []) (hrun : ∀ c ∈ run, Numeral.isPart c = true)
      (hend : EndsNumeral rest) : Lexes run rest (number (Numeral.runValue run))
  | name (f : Elementary) (rest : List Char) : Lexes f.name.toList rest (function f)
  | char {c : Char} {rest : List Char} {token : Token} (hspace : c ≠ ' ')
      (hpart : Numeral.isPart c = false) (hname : ∀ f : Elementary, ¬ f.name.toList <+: c :: rest)
      (h : Denotes c token) : Lexes [c] rest token

structure Lexeme where
  chars : List Char
  token : Token

/-- The lexemes of a text in order. Before, between and after them are only spaces. -/
inductive Segments : List Char → List Lexeme → Prop where
  | finish (spaces : Nat) : Segments (List.replicate spaces ' ') []
  | lexeme (spaces : Nat) {chars rest : List Char} {token : Token} {lexemes : List Lexeme}
      (h : Lexes chars rest token) (hrest : Segments rest lexemes) :
      Segments (List.replicate spaces ' ' ++ (chars ++ rest)) (⟨chars, token⟩ :: lexemes)

theorem denotes_ofChar (c : Char) : Denotes c (ofChar c) := by
  unfold ofChar
  cases hletter : Letter.ofSymbol? c with
  | some v =>
    obtain rfl := Letter.symbol_of_ofSymbol? hletter
    exact .letter v
  | none =>
    cases hoperator : Operator.ofSymbol? c with
    | some op =>
      obtain rfl := Operator.symbol_of_ofSymbol? hoperator
      exact .operator op
    | none =>
      have hnoLetter (v : Letter) : v.symbol ≠ c := by
        rintro rfl
        simp [Letter.ofSymbol?_symbol] at hletter
      have hnoOperator (op : Operator) : op.symbol ≠ c := by
        rintro rfl
        simp [Operator.ofSymbol?_symbol] at hoperator
      dsimp only
      split
      · exact .openParen
      · exact .closeParen
      · exact .bar
      · rename_i hopen hclose hbar
        have hnoBracket : c ∉ ['(', ')', '|'] := by
          simp only [List.mem_cons, List.not_mem_nil, or_false, not_or]
          exact ⟨hopen, hclose, hbar⟩
        exact .unknown hnoLetter hnoOperator hnoBracket

theorem Denotes.eq_ofChar {c : Char} {token : Token} (h : Denotes c token) : token = ofChar c := by
  cases h with
  | letter v => cases v <;> rfl
  | operator op => cases op <;> rfl
  | openParen | closeParen | bar => rfl
  | unknown hletter hoperator hbracket =>
    -- The token of the character cannot be any of the others.
    generalize htoken : ofChar c = token
    have hdenotes := htoken ▸ denotes_ofChar c
    cases hdenotes with
    | letter v => exact absurd rfl (hletter v)
    | operator op => exact absurd rfl (hoperator op)
    | unknown => rfl
    | _ => simp at hbracket

namespace Lexes

variable {chars rest : List Char} {token : Token}

theorem exists_eq_cons (h : Lexes chars rest token) :
    ∃ c tail, chars = c :: tail ∧ c ≠ ' ' := by
  cases h with
  | run hne hrun _ =>
    obtain ⟨c, tail, rfl⟩ := List.exists_cons_of_ne_nil hne
    refine ⟨c, tail, rfl, ?_⟩
    rintro rfl
    exact absurd (hrun ' ' List.mem_cons_self) (by decide)
  | name f => cases f <;> exact ⟨_, _, rfl, by decide⟩
  | char hspace => exact ⟨_, [], rfl, hspace⟩

theorem ne_endOfInput (h : Lexes chars rest token) : token ≠ endOfInput := by
  cases h with
  | run | name => exact Token.noConfusion
  | char _ _ _ hdenotes => cases hdenotes <;> exact Token.noConfusion

theorem run_eq (hrun : ∀ c ∈ chars, Numeral.isPart c = true) (hend : EndsNumeral rest) :
    (chars ++ rest).takeWhile Numeral.isPart = chars ∧
      (chars ++ rest).dropWhile Numeral.isPart = rest := by
  rw [List.takeWhile_append_of_pos hrun, List.dropWhile_append_of_pos hrun, hend.takeWhile_eq,
    hend.dropWhile_eq, List.append_nil]
  exact ⟨rfl, rfl⟩

theorem scan_eq (h : Lexes chars rest token) : scan (chars ++ rest) = token :: scan rest := by
  cases h with
  | run hne hrun hend =>
    obtain ⟨htake, hdrop⟩ := run_eq hrun hend
    obtain ⟨c, tail, rfl⟩ := List.exists_cons_of_ne_nil hne
    have hc := hrun c List.mem_cons_self
    rw [List.cons_append, List.takeWhile_cons_of_pos hc] at htake
    rw [List.cons_append, List.dropWhile_cons_of_pos hc] at hdrop
    rw [List.cons_append, scan_run hc, htake, hdrop]
  | name f => exact scan_name f rest
  | char hspace hpart hname hdenotes =>
    rw [hdenotes.eq_ofChar]
    exact scan_char hspace (by simp [hpart]) (Elementary.leading?_eq_none_iff.mpr hname)

/-- The text decides what the lexeme at its start is. -/
theorem unique {chars' rest' : List Char} {token' : Token} (h : Lexes chars rest token)
    (h' : Lexes chars' rest' token') (htext : chars ++ rest = chars' ++ rest') :
    chars = chars' ∧ token = token' ∧ rest = rest' := by
  have hscan : token :: scan rest = token' :: scan rest' := by
    rw [← h.scan_eq, ← h'.scan_eq, htext]
  obtain rfl : token = token' := (List.cons.inj hscan).1
  obtain rfl : chars = chars' := by
    -- Lexemes of different kinds would have different tokens.
    generalize heq : token = t at h'
    cases h with
    | run _ hrun hend =>
      cases h' with
      | run _ hrun' hend' => rw [← (run_eq hrun hend).1, htext, (run_eq hrun' hend').1]
      | name => cases heq
      | char _ _ _ hdenotes => cases hdenotes <;> cases heq
    | name f =>
      cases h' with
      | run => cases heq
      | name f' => rw [Token.function.inj heq]
      | char _ _ _ hdenotes => cases hdenotes <;> cases heq
    | char _ _ _ hdenotes =>
      cases h' with
      | run | name => cases hdenotes <;> cases heq
      | char => rw [(List.cons.inj htext).1]
  exact ⟨rfl, rfl, List.append_cancel_left htext⟩

end Lexes

theorem scan_replicate_append (spaces : Nat) (text : List Char) :
    scan (List.replicate spaces ' ' ++ text) = scan text := by
  induction spaces with
  | zero => rfl
  | succ spaces ih => rw [List.replicate_succ, List.cons_append, scan_space, ih]

namespace Segments

variable {text : List Char} {lexemes : List Lexeme}

theorem space (h : Segments text lexemes) : Segments (' ' :: text) lexemes := by
  cases h with
  | finish spaces => exact finish (spaces + 1)
  | lexeme spaces h hrest => exact lexeme (spaces + 1) h hrest

theorem cons {chars rest : List Char} {token : Token} (h : Lexes chars rest token)
    (hrest : Segments rest lexemes) : Segments (chars ++ rest) (⟨chars, token⟩ :: lexemes) :=
  lexeme 0 h hrest

theorem scan_eq (h : Segments text lexemes) :
    scan text = lexemes.map Lexeme.token ++ [endOfInput] := by
  induction h with
  | finish spaces => exact scan_spaces fun c hc => List.eq_of_mem_replicate hc
  | lexeme spaces h _ ih =>
    rw [scan_replicate_append, h.scan_eq, ih, List.map_cons, List.cons_append]

theorem exists_lexes_of_mem (h : Segments text lexemes) {l : Lexeme} (hl : l ∈ lexemes) :
    ∃ rest, Lexes l.chars rest l.token := by
  induction h with
  | finish => cases hl
  | lexeme spaces h _ ih =>
    rcases List.mem_cons.mp hl with rfl | hl
    · exact ⟨_, h⟩
    · exact ih hl

/-- As many spaces come before a lexeme as the text begins with. -/
theorem replicate_append_inj {spaces spaces' : Nat} {chars chars' rest rest' : List Char}
    {token token' : Token} (h : Lexes chars rest token) (h' : Lexes chars' rest' token')
    (htext : List.replicate spaces ' ' ++ (chars ++ rest) =
      List.replicate spaces' ' ' ++ (chars' ++ rest')) :
    chars ++ rest = chars' ++ rest' := by
  obtain ⟨c, tail, rfl, hc⟩ := h.exists_eq_cons
  obtain ⟨c', tail', rfl, hc'⟩ := h'.exists_eq_cons
  have hdrop := congrArg (List.dropWhile (· = ' ')) htext
  simpa [List.dropWhile_append_of_pos, hc, hc'] using hdrop

theorem unique (h : Segments text lexemes) {lexemes' : List Lexeme}
    (h' : Segments text lexemes') : lexemes' = lexemes := by
  induction h generalizing lexemes' with
  | finish spaces =>
    cases lexemes' with
    | nil => rfl
    | cons =>
      have hscan := h'.scan_eq
      rw [(finish spaces).scan_eq] at hscan
      simp at hscan
  | @lexeme spaces chars rest token lexemes h hrest ih =>
    generalize htext : List.replicate spaces ' ' ++ (chars ++ rest) = text at h'
    cases h' with
    | finish spaces' =>
      have hscan := (lexeme spaces h hrest).scan_eq
      rw [htext, (finish spaces').scan_eq] at hscan
      simp at hscan
    | lexeme spaces' h' hrest' =>
      obtain ⟨rfl, rfl, rfl⟩ := h'.unique h (replicate_append_inj h h' htext).symm
      rw [ih hrest']

end Segments

theorem exists_segments (text : List Char) : ∃ lexemes, Segments text lexemes := by
  induction text using scan.induct with
  | case1 => exact ⟨[], .finish 0⟩
  | case2 rest ih =>
    obtain ⟨lexemes, hsegments⟩ := ih
    exact ⟨lexemes, hsegments.space⟩
  | case3 c rest _ hpart ih =>
    obtain ⟨lexemes, hsegments⟩ := ih
    have hrun : ∀ d ∈ c :: rest.takeWhile Numeral.isPart, Numeral.isPart d = true :=
      List.forall_mem_cons.mpr ⟨hpart, fun d hd => List.mem_takeWhile_imp hd⟩
    have hend : EndsNumeral (rest.dropWhile Numeral.isPart) := by
      intro d hd
      simpa [Option.mem_def.mp hd] using List.head?_dropWhile_not Numeral.isPart rest
    have hlexeme := hsegments.cons (.run (List.cons_ne_nil _ _) hrun hend)
    rw [List.cons_append, List.takeWhile_append_dropWhile] at hlexeme
    exact ⟨_, hlexeme⟩
  | case4 c rest hspace hpart f hf ih =>
    obtain ⟨lexemes, hsegments⟩ := ih
    have hlexeme := hsegments.cons (.name f _)
    rw [Elementary.name_append_drop hf] at hlexeme
    exact ⟨_, hlexeme⟩
  | case5 c rest hspace hpart hf ih =>
    obtain ⟨lexemes, hsegments⟩ := ih
    have hname := Elementary.leading?_eq_none_iff.mp hf
    exact ⟨_, hsegments.cons (.char hspace (eq_false_of_ne_true hpart) hname (denotes_ofChar c))⟩

/-- Every text is divided into lexemes, and in one way only: they are not empty, with only spaces
around them, and each is the one that the text begins with from there on. The tokens of the text are
those of its lexemes, none of them the end of the input, which follows them. -/
theorem ofText_segments (text : String) :
    ∃ lexemes, Segments text.toList lexemes ∧
      (∀ l ∈ lexemes, l.chars ≠ [] ∧ l.token ≠ endOfInput) ∧
      ofText text = lexemes.map Lexeme.token ++ [endOfInput] ∧
      ∀ lexemes', Segments text.toList lexemes' → lexemes' = lexemes := by
  obtain ⟨lexemes, hsegments⟩ := exists_segments text.toList
  refine ⟨lexemes, hsegments, ?_, hsegments.scan_eq, fun _ => hsegments.unique⟩
  intro l hl
  obtain ⟨rest, hlexes⟩ := hsegments.exists_lexes_of_mem hl
  obtain ⟨c, tail, hchars, _⟩ := hlexes.exists_eq_cons
  exact ⟨hchars ▸ List.cons_ne_nil c tail, hlexes.ne_endOfInput⟩

end Token
end Formula
