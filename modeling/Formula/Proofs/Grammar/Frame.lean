import Formula.Proofs.Grammar.Moves

/-!
# What every production keeps

A reader only moves on: it drops tokens from the front, and takes back nothing that it has
reported. Every production of both grammars gives the depth back that it started with, and none
goes deeper than the limit.
-/

set_option autoImplicit false

namespace Formula

namespace Cursor

/-- The second cursor is a later position of the reader that was at the first one. -/
structure Reaches (c c' : Cursor) : Prop where
  tokens : c'.tokens <:+ c.tokens
  deepest : c.deepest ≤ c'.deepest
  tooDeep : c.tooDeep = true → c'.tooDeep = true
  unclosed : c.unclosed ≤ c'.unclosed
  displaced : c.displaced <+: c'.displaced

namespace Reaches

theorem refl (c : Cursor) : c.Reaches c :=
  ⟨List.suffix_refl _, Nat.le_refl _, id, Nat.le_refl _, List.prefix_refl _⟩

theorem trans {a b c : Cursor} (hab : a.Reaches b) (hbc : b.Reaches c) : a.Reaches c :=
  ⟨hbc.tokens.trans hab.tokens, Nat.le_trans hab.deepest hbc.deepest,
    fun h => hbc.tooDeep (hab.tooDeep h), Nat.le_trans hab.unclosed hbc.unclosed,
    hab.displaced.trans hbc.displaced⟩

theorem length_le {c c' : Cursor} (h : c.Reaches c') : c'.tokens.length ≤ c.tokens.length :=
  h.tokens.length_le

end Reaches

theorem reaches_note (c : Cursor) (step : Step) : c.Reaches (c.note step) :=
  ⟨List.suffix_refl _, Nat.le_refl _, id, Nat.le_refl _, List.prefix_refl _⟩

theorem reaches_advance (c : Cursor) : c.Reaches c.advance :=
  ⟨List.tail_suffix _, Nat.le_refl _, id, Nat.le_refl _, List.prefix_refl _⟩

theorem reaches_descend (c : Cursor) : c.Reaches c.descend :=
  ⟨List.suffix_refl _, Nat.le_max_left _ _, id, Nat.le_refl _, List.prefix_refl _⟩

theorem reaches_withDepth (c : Cursor) (depth : Nat) : c.Reaches { c with depth } :=
  ⟨List.suffix_refl _, Nat.le_refl _, id, Nat.le_refl _, List.prefix_refl _⟩

theorem reaches_tooDeep (c : Cursor) {tooDeep : Bool} (h : c.tooDeep = true → tooDeep = true) :
    c.Reaches { c with tooDeep } :=
  ⟨List.suffix_refl _, Nat.le_refl _, h, Nat.le_refl _, List.prefix_refl _⟩

theorem reaches_displace (c : Cursor) (e : Expr) : c.Reaches (c.displace e) :=
  ⟨List.suffix_refl _, Nat.le_refl _, id, Nat.le_refl _, List.prefix_append _ _⟩

theorem reaches_unclosed (c : Cursor) : c.Reaches { c with unclosed := c.unclosed + 1 } :=
  ⟨List.suffix_refl _, Nat.le_refl _, id, Nat.le_succ _, List.prefix_refl _⟩

theorem moves_reaches (limit : Option Nat) : Moves limit Reaches where
  refl := Reaches.refl
  trans := Reaches.trans
  advance := reaches_advance
  note := reaches_note
  descend c _ := c.reaches_descend
  ascend c := c.reaches_withDepth _
  restore h := h.trans (reaches_withDepth _ _)
  tooDeep c _ := c.reaches_tooDeep fun _ => rfl

/-- Between the positions, the reader has recorded how deep it went: to the limit at most, at least
to where it is, and to the limit if it reports it. -/
structure Records (most : Nat) (c c' : Cursor) : Prop where
  le : c'.deepest ≤ max c.deepest most
  ge : c.deepest ≤ c'.deepest
  depth : c'.depth ≤ max c.depth c'.deepest
  tooDeep : c'.tooDeep = true → c.tooDeep = true ∨ most ≤ max c.depth c'.deepest

namespace Records

variable {most : Nat}

/-- Whoever goes neither deeper nor reports the limit has nothing to record. -/
theorem of_eq {c c' : Cursor} (hdeepest : c'.deepest = c.deepest) (hdepth : c'.depth ≤ c.depth)
    (htooDeep : c'.tooDeep = c.tooDeep) : Records most c c' where
  le := by omega
  ge := Nat.le_of_eq hdeepest.symm
  depth := by omega
  tooDeep h := .inl (htooDeep ▸ h)

theorem trans {a b c : Cursor} (hab : Records most a b) (hbc : Records most b c) :
    Records most a c where
  le := Nat.le_trans hbc.le (Nat.max_le.mpr ⟨hab.le, Nat.le_max_right _ _⟩)
  ge := Nat.le_trans hab.ge hbc.ge
  depth := by
    have hb := hab.depth
    have hc := hbc.depth
    have hge := hbc.ge
    omega
  tooDeep h := by
    have hge := hbc.ge
    -- Where the second stretch started at the limit, the first one went down to it.
    rcases hbc.tooDeep h with hb | hle
    · rcases hab.tooDeep hb with ha | hle
      · exact .inl ha
      · exact .inr (by omega)
    · have hb := hab.depth
      exact .inr (by omega)

end Records

theorem records_descend {most : Nat} (c : Cursor) (hroom : c.isFull (some most) = false) :
    Records most c c.descend := by
  have hlt : c.depth < most := by simpa [isFull] using hroom
  refine ⟨?_, Nat.le_max_left _ _, ?_, .inl⟩
  · change max c.deepest (c.depth + 1) ≤ max c.deepest most
    omega
  · change c.depth + 1 ≤ max c.depth (max c.deepest (c.depth + 1))
    omega

theorem records_tooDeep {most : Nat} (c : Cursor) (hfull : c.isFull (some most) = true) :
    Records most c { c with tooDeep := true } := by
  have hle : most ≤ c.depth := by simpa [isFull] using hfull
  refine ⟨Nat.le_max_left _ _, Nat.le_refl _, Nat.le_max_left _ _, ?_⟩
  intro _
  exact .inr (Nat.le_trans hle (Nat.le_max_left _ _))

theorem records_displace (most : Nat) (c : Cursor) (e : Expr) : Records most c (c.displace e) :=
  .of_eq rfl (Nat.le_refl _) rfl

theorem records_unclosed (most : Nat) (c : Cursor) :
    Records most c { c with unclosed := c.unclosed + 1 } :=
  .of_eq rfl (Nat.le_refl _) rfl

theorem moves_records (most : Nat) : Moves (some most) (Records most) where
  refl _ := .of_eq rfl (Nat.le_refl _) rfl
  trans := Records.trans
  advance _ := .of_eq rfl (Nat.le_refl _) rfl
  note _ _ := .of_eq rfl (Nat.le_refl _) rfl
  descend := records_descend
  ascend _ := .of_eq rfl (Nat.sub_le _ _) rfl
  restore h := { h with depth := Nat.le_max_left _ _ }
  tooDeep := records_tooDeep

/-- The moves alone count nothing as unclosed and displace nothing. -/
theorem moves_keep {α : Type} (limit : Option Nat) (report : Cursor → α)
    (h : ∀ {c c' : Cursor}, c'.unclosed = c.unclosed → c'.displaced = c.displaced →
      report c' = report c) : Moves limit fun c c' => report c' = report c where
  refl _ := rfl
  trans hab hbc := hbc.trans hab
  advance _ := h rfl rfl
  note _ _ := h rfl rfl
  descend _ _ := h rfl rfl
  ascend _ := h rfl rfl
  restore {c c'} hc := by
    have hsame : report { c' with depth := c.depth } = report c' := h rfl rfl
    exact hsame.trans hc
  tooDeep _ _ := h rfl rfl

/-- What a production of the grammar may do to the position of its reader: it moves on, and on its
way it goes no deeper than the limit, and to the limit if it reports it. It gives the depth back,
and otherwise reports only what readers of its grammar do. -/
structure Frame (grammar : Grammar) (most : Nat) (c c' : Cursor) : Prop extends c.Reaches c' where
  depth : c'.depth = c.depth
  deepest_le : c'.deepest ≤ max c.deepest most
  most_le_of_tooDeep : c'.tooDeep = true → c.tooDeep = true ∨ most ≤ max c.depth c'.deepest
  unclosed_single : grammar = .single → c'.unclosed = c.unclosed
  displaced_chained : grammar = .chained → c'.displaced = c.displaced

end Cursor

namespace Production

/-- A production that only moves on, and gives the depth back. -/
structure Framed (p : Production) : Prop where
  reaches : ∀ c : Cursor, c.Reaches (p c).2
  depth : ∀ c : Cursor, (p c).2.depth = c.depth

theorem Framed.nested {p : Production} (hp : p.Framed) (limit : Option Nat) :
    (p.nested limit).Framed := by
  refine ⟨Respects.nested hp.reaches (Cursor.moves_reaches limit), ?_⟩
  intro c
  unfold Production.nested
  split
  · exact c.reportDepth_depth
  · change (p c.descend).2.depth - 1 = c.depth
    rw [hp.depth]
    rfl

end Production

namespace Single

theorem joined_framed (level : Level) {operand : Production} (h : operand.Framed) :
    (joined level operand).Framed := by
  refine ⟨joined_respects (Cursor.moves_reaches none) level h.reaches, ?_⟩
  intro c
  rw [joined_eq]
  split
  · exact h.depth c
  · exact (h.depth _).trans (h.depth c)

theorem powerOf_framed {factor : Production} (h : factor.Framed) : (powerOf factor).Framed :=
  joined_framed .power h

theorem termOf_framed {factor : Production} (h : factor.Framed) : (termOf factor).Framed :=
  joined_framed .product (powerOf_framed h)

theorem signedTerm_framed {factor : Production} (h : factor.Framed) (before : Expr)
    (op : Operator) : (signedTerm factor before op).Framed := by
  have hmoves := Cursor.moves_reaches none
  refine ⟨signedTerm_respects hmoves Cursor.reaches_displace h.reaches before op, ?_⟩
  intro c
  rw [signedTerm_snd, (termOf_framed h).depth]
  unfold signCursor
  split <;> rfl

theorem expressionOf_framed {factor : Production} (h : factor.Framed) :
    (expressionOf factor).Framed := by
  have ht := termOf_framed h
  have hs := signedTerm_framed h
  have hmoves := Cursor.moves_reaches none
  refine ⟨expressionOf_respects hmoves Cursor.reaches_displace h.reaches, ?_⟩
  intro c
  rw [expressionOf_eq]
  split
  · exact ht.depth c
  · split
    · exact ((hs _ _).depth _).trans (ht.depth c)
    · exact (ht.depth _).trans (ht.depth c)

theorem factorWithin_framed (limit : Option Nat) (size : Nat) :
    (factorWithin limit size).Framed := by
  have hmoves := Cursor.moves_reaches limit
  refine ⟨factorWithin_respects hmoves Cursor.reaches_displace size, ?_⟩
  induction size with
  | zero => exact fun _ => rfl
  | succ size ih =>
    have hfactor : (factorWithin limit size).Framed :=
      ⟨factorWithin_respects hmoves Cursor.reaches_displace size, ih⟩
    have hgroup := (expressionOf_framed hfactor).nested limit
    have hcall := hfactor.nested limit
    intro c
    unfold factorWithin
    split
    · rfl
    · rfl
    · exact hgroup.depth _
    · exact hcall.depth _
    · exact hgroup.depth _
    · rfl

end Single

namespace Chained

theorem foldWithin_reaches (limit : Option Nat) (level : Level) {operand : Production}
    (h : operand.Framed) (size : Nat) (left : Expr) (c : Cursor) :
    c.Reaches (foldWithin limit level operand size left c).2 :=
  foldWithin_respects (Cursor.moves_reaches limit) level h.reaches size left c

theorem fold_framed (limit : Option Nat) (level : Level) {operand : Production}
    (h : operand.Framed) (first : Expr) : (fold limit level operand first).Framed :=
  ⟨fold_respects (Cursor.moves_reaches limit) level h.reaches first, fun _ => rfl⟩

theorem powerWithin_framed (limit : Option Nat) {factor : Production} (h : factor.Framed)
    (size : Nat) : (powerWithin limit factor size).Framed := by
  refine ⟨powerWithin_respects (Cursor.moves_reaches limit) h.reaches size, ?_⟩
  intro c
  cases size with
  | zero => exact h.depth c
  | succ size =>
    rw [powerWithin_succ]
    rcases (factor c).2.takeFold_ends_or_links limit .power with ⟨_, _, ht⟩ | ⟨op, _, ht⟩
    · simp only [ht]
      exact h.depth c
    · simp only [ht]
      exact h.depth c

theorem powerWithin_reaches {limit : Option Nat} {factor : Production} {size : Nat}
    (hframed : factor.Framed) (c : Cursor) :
    (factor c).2.Reaches (powerWithin limit factor size c).2 := by
  cases size with
  | zero => exact Cursor.Reaches.refl _
  | succ size =>
    have hlink := (Cursor.moves_reaches limit).takeFold .power (factor c).2
    have hexponent := powerWithin_framed limit hframed size
    rw [powerWithin_succ]
    rcases ht : (factor c).2.takeFold limit .power with ⟨_ | op, next⟩
    · rwa [ht] at hlink
    · rw [ht] at hlink
      exact (hlink.trans (hexponent.reaches next)).trans (Cursor.reaches_withDepth _ _)

theorem powerOf_framed (limit : Option Nat) {factor : Production} (h : factor.Framed) :
    (powerOf limit factor).Framed :=
  ⟨fun c => (powerWithin_framed limit h _).reaches c,
    fun c => (powerWithin_framed limit h _).depth c⟩

theorem termOf_framed (limit : Option Nat) {factor : Production} (h : factor.Framed) :
    (termOf limit factor).Framed := by
  have hp := powerOf_framed limit h
  have hf := fold_framed limit .product hp
  exact ⟨fun c => (hp.reaches c).trans ((hf _).reaches _),
    fun c => ((hf _).depth _).trans (hp.depth c)⟩

theorem leadingTerm_framed (limit : Option Nat) {factor : Production} (h : factor.Framed) :
    (leadingTerm limit factor).Framed := by
  have ht := termOf_framed limit h
  refine ⟨leadingTerm_respects (Cursor.moves_reaches limit) h.reaches, ?_⟩
  intro c
  unfold leadingTerm
  split
  · exact ht.depth _
  · exact ht.depth c

theorem expressionOf_framed (limit : Option Nat) {factor : Production} (h : factor.Framed) :
    (expressionOf limit factor).Framed := by
  have hl := leadingTerm_framed limit h
  have hf := fold_framed limit .sum (termOf_framed limit h)
  refine ⟨expressionOf_respects (Cursor.moves_reaches limit) h.reaches, ?_⟩
  intro c
  rw [expressionOf_eq]
  exact ((hf _).depth _).trans (hl.depth c)

theorem reaches_close (closing : Token) (c : Cursor) : c.Reaches (close closing c) :=
  close_respects (Cursor.moves_reaches none) Cursor.reaches_unclosed closing c

@[simp] theorem close_depth (closing : Token) (c : Cursor) : (close closing c).depth = c.depth := by
  unfold close
  split <;> rfl

theorem factorWithin_framed (limit : Option Nat) (size : Nat) :
    (factorWithin limit size).Framed := by
  have hmoves := Cursor.moves_reaches limit
  refine ⟨factorWithin_respects hmoves Cursor.reaches_unclosed size, ?_⟩
  induction size with
  | zero => exact fun _ => rfl
  | succ size ih =>
    have hfactor : (factorWithin limit size).Framed :=
      ⟨factorWithin_respects hmoves Cursor.reaches_unclosed size, ih⟩
    have hgroup := (expressionOf_framed limit hfactor).nested limit
    have hcall := hfactor.nested limit
    have hsign := (powerOf_framed limit hfactor).nested limit
    intro c
    unfold factorWithin
    split
    · split
      · exact hsign.depth _
      · rfl
    · rfl
    · rfl
    · exact (close_depth _ _).trans (hgroup.depth _)
    · exact hcall.depth _
    · exact (close_depth _ _).trans (hgroup.depth _)
    · rfl

end Chained

namespace Grammar

theorem production_framed (grammar : Grammar) (r : Option Level) (limit : Option Nat) :
    (grammar.production r limit).Framed := by
  have hreaches := grammar.production_respects (Cursor.moves_reaches limit)
    (fun _ => Cursor.reaches_displace) (fun _ => Cursor.reaches_unclosed) r
  refine ⟨hreaches, ?_⟩
  intro c
  cases grammar with
  | single =>
    have hfactor := Single.factorWithin_framed limit c.tokens.length
    match r with
    | none => exact hfactor.depth c
    | some .power => exact (Single.powerOf_framed hfactor).depth c
    | some .product => exact (Single.termOf_framed hfactor).depth c
    | some .sum => exact (Single.expressionOf_framed hfactor).depth c
  | chained =>
    have hfactor := Chained.factorWithin_framed limit c.tokens.length
    match r with
    | none => exact hfactor.depth c
    | some .power => exact (Chained.powerOf_framed limit hfactor).depth c
    | some .product => exact (Chained.termOf_framed limit hfactor).depth c
    | some .sum => exact (Chained.expressionOf_framed limit hfactor).depth c

/-- From every position and with every limit, the productions of both grammars keep their frame. -/
theorem production_frame (grammar : Grammar) (r : Option Level) (most : Nat) (c : Cursor) :
    c.Frame grammar most (grammar.production r (some most) c).2 := by
  have hframed := grammar.production_framed r (some most)
  have hrecords : c.Records most (grammar.production r (some most) c).2 :=
    grammar.production_respects (Cursor.moves_records most)
      (fun _ => Cursor.records_displace most) (fun _ => Cursor.records_unclosed most) r c
  refine ⟨hframed.reaches c, hframed.depth c, hrecords.le, hrecords.tooDeep, ?_, ?_⟩
  · rintro rfl
    have hmoves := Cursor.moves_keep (some most) Cursor.unclosed fun h _ => h
    exact single.production_respects hmoves (fun _ _ _ => rfl) (fun h => nomatch h) r c
  · rintro rfl
    have hmoves := Cursor.moves_keep (some most) Cursor.displaced fun _ h => h
    exact chained.production_respects hmoves (fun h => nomatch h) (fun _ _ => rfl) r c

/-- A relation that holds across every move holds across the whole run. -/
theorem run_respects {limit : Option Nat} {R : Cursor → Cursor → Prop} (hR : Cursor.Moves limit R)
    (hdisplace : ∀ c e, R c (c.displace e))
    (hunclosed : ∀ c : Cursor, R c { c with unclosed := c.unclosed + 1 }) (grammar : Grammar)
    (tokens : List Token) : R { tokens } (grammar.run limit tokens).2 := by
  have hrun := grammar.production_respects hR (fun _ => hdisplace) (fun _ => hunclosed) (some .sum)
  cases grammar with
  | single => exact hrun _
  | chained => exact hrun _

theorem run_reaches (grammar : Grammar) (limit : Option Nat) (tokens : List Token) :
    Cursor.Reaches { tokens } (grammar.run limit tokens).2 :=
  run_respects (Cursor.moves_reaches limit) Cursor.reaches_displace Cursor.reaches_unclosed grammar
    tokens

/-- No reader goes deeper than its limit. -/
theorem deepest_run_le (grammar : Grammar) (most : Nat) (tokens : List Token) :
    (grammar.run (some most) tokens).2.deepest ≤ most := by
  have hrun := run_respects (Cursor.moves_records most)
    (Cursor.records_displace most) (Cursor.records_unclosed most) grammar tokens
  simpa using hrun.le

/-- Without a limit there is nothing to report about the depth. -/
theorem tooDeep_run_none (grammar : Grammar) (tokens : List Token) :
    (grammar.run none tokens).2.tooDeep = false := by
  have hmoves : Cursor.Moves none fun c c' => c'.tooDeep = c.tooDeep :=
    { refl := fun _ => rfl
      trans := fun hab hbc => hbc.trans hab
      advance := fun _ => rfl
      note := fun _ _ => rfl
      descend := fun _ _ => rfl
      ascend := fun _ => rfl
      restore := id
      tooDeep := fun _ hfull => by cases hfull }
  exact run_respects hmoves (fun _ _ => rfl) (fun _ => rfl) grammar tokens

end Grammar

end Formula
