import Formula.Proofs.Chained.Rereading
import Formula.Proofs.Grammar.Height
import Formula.Proofs.Phrase.Rendered

/-!
# The steepest chains

Each chain by itself keeps to the limit on the depth, but chains in chains do not: the links of a
sum and those of its first product lie on one path. The bound on the height of chains is the best
one there is.
-/

set_option autoImplicit false

namespace Formula.Chained

/-- So many operators, each with a letter as its right operand. -/
def links (op : Operator) : Nat → List Token
  | 0 => []
  | count + 1 => .operator op :: .letter .x :: links op count

/-- The expression with so many letters joined to it. -/
def joinLinks (op : Operator) : Nat → Expr → Expr
  | 0, left => left
  | count + 1, left => joinLinks op count (.binary op left (.letter .x))

variable {w : Expr.PathWeights}

theorem pathWeight_joinLinks (hw : w.left = 1) (op : Operator) (count : Nat) {left : Expr}
    (h : w.leaf ≤ left.pathWeight w) :
    (joinLinks op count left).pathWeight w = left.pathWeight w + count := by
  induction count generalizing left with
  | zero => rfl
  | succ count ih =>
    have hbinary : (Expr.binary op left (.letter .x)).pathWeight w = left.pathWeight w + 1 := by
      simp only [Expr.pathWeight, hw]
      omega
    rw [joinLinks, ih (by omega), hbinary]
    omega

variable {limit : Option Nat} {size : Nat} {c : Cursor} {rest : List Token}

theorem stopsAt_links {level : Level} {op : Operator} (hop : op.level = level)
    (hstop : StopsAt (some level) rest) (count : Nat) :
    StopsAt level.operand (links op count ++ rest) := by
  cases count with
  | zero => exact hstop.operand
  | succ count => exact stopsAt_operand_operator hop _

theorem production_letter {r : Option Level} {v : Letter} (htokens : c.tokens = .letter v :: rest)
    (hsize : c.tokens.length ≤ size) (hroom : HasRoom limit c.depth) (hstop : StopsAt r rest) :
    ReadsAs c (.letter v) rest (production limit size r c) := by
  have hclosed (closes : Bracket → Token → Prop) :
      (Phrase.ofFactor r (.letter v)).Closed closes :=
    (Phrase.closed_ofFactor closes _).mpr trivial
  have hread : ReadsUnless (¬ (Phrase.ofFactor r (.letter v)).Closed Phrase.OwnCloser) c
      (Phrase.ofFactor r (.letter v)).expr rest (production limit size r c) :=
    production_readsUnless (hclosed _) (by simp [Phrase.expr, Expr.hasMissing])
      (by simp [htokens, Phrase.tokens]) hsize (by simpa [Phrase.nesting] using hroom) hstop
  rw [Phrase.expr_ofFactor] at hread
  rcases hread with hread | ⟨hflaw, _⟩
  · exact hread
  · exact absurd (hclosed _) hflaw

/-- Where there is room for a chain, it is read to its end. -/
theorem foldWithin_links {level : Level} {op : Operator} (hop : op.level = level) (fuel : Nat)
    {count : Nat} (left : Expr) (htokens : c.tokens = links op count ++ rest)
    (hfuel : count ≤ fuel) (hsize : c.tokens.length ≤ size)
    (hroom : HasRoom limit (c.depth + count)) (hstop : StopsAt (some level) rest) :
    ReadsAs c (joinLinks op count left) rest
      ((foldWithin limit level (production limit size level.operand) fuel left c).1,
        { (foldWithin limit level (production limit size level.operand) fuel left c).2 with
          depth := c.depth }) := by
  induction count generalizing fuel left c with
  | zero =>
    rw [foldWithin_of_stopsAt (by rwa [htokens])]
    exact ⟨rfl, htokens, Cursor.Quiet.refl c⟩
  | succ count ih =>
    obtain ⟨fuel, rfl⟩ : ∃ fuel', fuel = fuel' + 1 := ⟨fuel - 1, by omega⟩
    have htake : c.takeFold limit level = (some op, c.advance.descend) :=
      takeFold_of_operator hop htokens (hroom.of_le (by omega))
    have htail : c.advance.descend.tokens = .letter .x :: (links op count ++ rest) := by
      simp [htokens, links]
    have hlength : c.tokens.length = (links op count ++ rest).length + 2 := by
      simp [htokens, links]
    have hletter : ReadsAs c.advance.descend (.letter .x) (links op count ++ rest)
        (production limit size level.operand c.advance.descend) :=
      production_letter htail (by simp; omega) (hroom.of_le (Nat.add_le_add_left (by omega) _))
        (stopsAt_links hop hstop count)
    have hdepth : (production limit size level.operand c.advance.descend).2.depth = c.depth + 1 :=
      hletter.quiet.depth
    have hnext := ih fuel (.binary op left (.letter .x)) hletter.tokens (by omega)
      (by rw [hletter.tokens]; omega) (hroom.of_le (by omega))
    rw [foldWithin_succ, htake]
    simp only [hletter.expr]
    have hquiet := hletter.quiet.trans hnext.quiet
    exact ⟨hnext.expr, hnext.tokens, rfl, hquiet.tooDeep, hquiet.unclosed, hquiet.displaced⟩

theorem length_links (op : Operator) (count : Nat) : (links op count).length = 2 * count := by
  induction count with
  | zero => rfl
  | succ count ih => simp only [links, List.length_cons, ih]; omega

theorem fold_links {level : Level} {op : Operator} (hop : op.level = level) {count : Nat}
    (left : Expr) (htokens : c.tokens = links op count ++ rest) (hsize : c.tokens.length ≤ size)
    (hroom : HasRoom limit (c.depth + count)) (hstop : StopsAt (some level) rest) :
    ReadsAs c (joinLinks op count left) rest
      (fold limit level (production limit size level.operand) left c) := by
  have hfuel : count ≤ c.tokens.length := by
    rw [htokens, List.length_append, length_links]
    omega
  exact foldWithin_links hop c.tokens.length left htokens hfuel hsize hroom hstop

/-- The expression that is read and the tokens that are left, whatever has been reported. -/
structure ReadsTo (e : Expr) (rest : List Token) (result : Expr × Cursor) : Prop where
  expr : result.1 = e
  tokens : result.2.tokens = rest

theorem powerOf_raised {base : Expr} (hbase : ReadsTo base (.operator .power :: .letter .x :: rest)
      (factorWithin limit size c))
    (hsize : c.tokens.length ≤ size) (hroom : HasRoom limit (c.depth + 1))
    (hstop : StopsAt (some .power) rest) :
    ReadsTo (.binary .power base (.letter .x)) rest
      (powerOf limit (factorWithin limit size) c) := by
  have hframed := factorWithin_framed limit size
  have hdepth : (factorWithin limit size c).2.depth = c.depth := hframed.depth c
  have hlength := (hframed.reaches c).length_le
  rw [hbase.tokens, List.length_cons, List.length_cons] at hlength
  obtain ⟨fuel, hfuel⟩ : ∃ fuel, c.tokens.length = fuel + 1 := ⟨c.tokens.length - 1, by omega⟩
  have htake : (factorWithin limit size c).2.takeFold limit .power =
      (some .power, (factorWithin limit size c).2.advance.descend) :=
    takeFold_of_operator rfl hbase.tokens (by rwa [hdepth])
  have hletter : ReadsAs _ (.letter .x) rest
      (factorWithin limit size (factorWithin limit size c).2.advance.descend) :=
    production_letter (r := none) (by simp [hbase.tokens]) (by simp [hbase.tokens]; omega)
      (by simpa [Cursor.advance, hdepth] using hroom) trivial
  have hexponent : powerWithin limit (factorWithin limit size) fuel _ = _ :=
    powerWithin_of_stopsAt (c := (factorWithin limit size c).2.advance.descend)
      (by rwa [hletter.tokens])
  rw [powerOf, hfuel, powerWithin_succ, htake]
  simp only [hexponent, hbase.expr, hletter.expr]
  exact ⟨rfl, hletter.tokens⟩

theorem factorWithin_bar {e : Expr} {middle : List Token} (htokens : c.tokens = .bar :: middle)
    (hroom : HasRoom limit (c.depth + 1))
    (hinner : ∀ c' : Cursor, c'.tokens = middle → c'.depth = c.depth + 1 →
      ReadsTo e (.bar :: rest) (expressionOf limit (factorWithin limit size) c')) :
    ReadsTo (.absolute e) rest (factorWithin limit (size + 1) c) := by
  have hread := hinner (c.advance.note (.factor .bar)).descend (by simp [htokens]) rfl
  have hfull : (c.advance.note (.factor .bar)).isFull limit = false := Cursor.isFull_eq_false hroom
  simp only [factorWithin, htokens, Production.nested, hfull, Bool.false_eq_true, if_false]
  exact ⟨by simp only [hread.expr], by simp [close, Cursor.ascend, hread.tokens]⟩

/-- As much as can be around the first power of an expression: a sign, a chain of products and a
chain of sums. -/
def steepRow (room : Nat) (first : List Token) : List Token :=
  .operator .subtract :: (first ++ (links .multiply room ++ links .add room))

def steepJoin (room : Nat) (first : Expr) : Expr :=
  joinLinks .add room (.signed .minus (joinLinks .multiply room first))

/-- The tokens of a steepest expression for the room. -/
def steepTokens : Nat → List Token
  | 0 => steepRow 0 [.function .sine]
  | room + 1 =>
    steepRow (room + 1) (.bar :: (steepTokens room ++ [.bar, .operator .power, .letter .x]))

def steepExpr : Nat → Expr
  | 0 => steepJoin 0 (.call .sine .missing)
  | room + 1 => steepJoin (room + 1) (.binary .power (.absolute (steepExpr room)) (.letter .x))

theorem pathWeight_steepJoin (hw : w.left = 1) (room : Nat) {first : Expr}
    (h : w.leaf ≤ first.pathWeight w) :
    (steepJoin room first).pathWeight w = first.pathWeight w + room + w.sign + room := by
  have hproduct := pathWeight_joinLinks hw .multiply room h
  have hsigned : (Expr.signed .minus (joinLinks .multiply room first)).pathWeight w =
      first.pathWeight w + room + w.sign := by
    rw [Expr.pathWeight, hproduct]
  rw [steepJoin, pathWeight_joinLinks hw .add room (by omega), hsigned]

theorem pathWeight_steepExpr (hw : w.left = 1) (room : Nat) :
    (steepExpr room).pathWeight w = expressionBound w room := by
  have hbound (room : Nat) :
      expressionBound w room = powerBound w room + room + w.sign + room := by
    simp only [expressionBound, termBound, hw, Nat.one_mul]
  induction room with
  | zero =>
    have hcall : (Expr.call .sine .missing).pathWeight w = powerBound w 0 := by
      simp [Expr.pathWeight, powerBound]
    have hleaf : w.leaf ≤ powerBound w 0 := by simp [powerBound]
    rw [steepExpr, pathWeight_steepJoin hw 0 (by rwa [hcall]), hcall, hbound]
  | succ room ih =>
    have hleaf := leaf_lt_factorBound w (room + 1)
    have hpower : (Expr.binary .power (.absolute (steepExpr room)) (.letter .x)).pathWeight w =
        powerBound w (room + 1) := by
      rw [powerBound_succ]
      simp only [Expr.pathWeight, ih, factorBound, hw] at hleaf ⊢
      omega
    have hle := factorBound_le_powerBound w (room + 1)
    rw [steepExpr, pathWeight_steepJoin hw _ (by omega), hpower, hbound]

theorem expressionOf_steepRow {room : Nat} {start : List Token} {first : Expr}
    (htokens : c.tokens = steepRow room start ++ rest) (hsize : c.tokens.length ≤ size)
    (hroom : HasRoom limit (c.depth + room)) (hstop : StopsAt (some .sum) rest)
    (hfirst : ReadsTo first (links .multiply room ++ (links .add room ++ rest))
      (powerOf limit (factorWithin limit size) c.advance)) :
    ReadsTo (steepJoin room first) rest (expressionOf limit (factorWithin limit size) c) := by
  have hfactor := factorWithin_framed limit size
  have hpower := powerOf_framed limit hfactor
  have hterm := termOf_framed limit hfactor
  have hsign : peekSign? c = some .minus := peekSign?_of_sign htokens
  have hadvance : c.advance.tokens.length ≤ size := by
    rw [Cursor.advance_tokens, List.length_tail]
    omega
  have hadd : Operator.add.level = .sum := rfl
  have hstop' : StopsAt (some .product) (links .add room ++ rest) := stopsAt_links hadd hstop room
  have hproducts : ReadsAs _ (joinLinks .multiply room first) (links .add room ++ rest)
      (fold limit .product (powerOf limit (factorWithin limit size)) first
        (powerOf limit (factorWithin limit size) c.advance).2) :=
    fold_links rfl first hfirst.tokens
      (Nat.le_trans (hpower.reaches c.advance).length_le hadvance)
      (by rwa [hpower.depth]) hstop'
  have hfirstTerm : ReadsTo (joinLinks .multiply room first) (links .add room ++ rest)
      (termOf limit (factorWithin limit size) c.advance) := by
    rw [termOf_eq, hfirst.expr]
    exact ⟨hproducts.expr, hproducts.tokens⟩
  have hsums : ReadsAs _ (steepJoin room first) rest
      (fold limit .sum (termOf limit (factorWithin limit size))
        (.signed .minus (joinLinks .multiply room first))
        (termOf limit (factorWithin limit size) c.advance).2) :=
    fold_links rfl _ hfirstTerm.tokens
      (Nat.le_trans (hterm.reaches c.advance).length_le hadvance)
      (by rwa [hterm.depth]) hstop
  rw [expressionOf_eq, leadingTerm, hsign]
  simp only [hfirstTerm.expr]
  exact ⟨hsums.expr, hsums.tokens⟩

theorem hasRoom_some {most depth : Nat} (h : depth ≤ most) : HasRoom (some most) depth := by
  intro most' heq
  obtain rfl := Option.some.inj heq
  exact h

/-- At the limit, a call is read as a call of nothing, and the reader goes on after it. -/
theorem powerOf_call_of_isFull {f : Elementary} (htokens : c.tokens = .function f :: rest)
    (hsize : c.tokens.length ≤ size) (hfull : c.isFull limit = true)
    (hstop : StopsAt (some .power) rest) :
    ReadsTo (.call f .missing) rest (powerOf limit (factorWithin limit size) c) := by
  obtain ⟨size, rfl, -⟩ := exists_size_eq_succ htokens hsize
  have hstart : (c.advance.note (.factor (.function f))).isFull limit = true := hfull
  have hcall : factorWithin limit (size + 1) c =
      (.call f .missing, (c.advance.note (.factor (.function f))).reportDepth) := by
    rw [factorWithin_call htokens, Production.nested, if_pos hstart]
  have hleft : (factorWithin limit (size + 1) c).2.tokens = rest := by
    rw [hcall]
    simp [htokens]
  rw [powerOf, powerWithin_of_stopsAt (by rwa [hleft])]
  exact ⟨by rw [hcall], hleft⟩

/-- The reader is led through a steepest expression to its end. -/
theorem expressionOf_steepTokens {most room : Nat} (htokens : c.tokens = steepTokens room ++ rest)
    (hsize : c.tokens.length ≤ size) (hdepth : c.depth + room = most)
    (hstop : StopsAt (some .sum) rest) :
    ReadsTo (steepExpr room) rest (expressionOf (some most) (factorWithin (some most) size) c) := by
  have hadvance : c.advance.tokens.length ≤ size := by
    rw [Cursor.advance_tokens, List.length_tail]
    omega
  induction room generalizing c size rest with
  | zero =>
    -- Without room, the argument of the call is missing, and nothing of the rest is read for it.
    have hfull : c.advance.isFull (some most) = true := by
      rw [Cursor.isFull_iff, Cursor.room, ← hdepth]
      simp [Cursor.advance]
    apply expressionOf_steepRow htokens hsize (hasRoom_some (by omega)) hstop
    exact powerOf_call_of_isFull (by simp [htokens, steepTokens, steepRow, links]) hadvance hfull
      hstop.operand.operand
  | succ room ih =>
    apply expressionOf_steepRow htokens hsize (hasRoom_some (by omega)) hstop
    have htail : c.advance.tokens = .bar :: (steepTokens room ++ .bar :: .operator .power ::
        .letter .x :: (links .multiply (room + 1) ++ (links .add (room + 1) ++ rest))) := by
      simp [htokens, steepTokens, steepRow]
    have hmultiply : Operator.multiply.level = .product := rfl
    have hadd : Operator.add.level = .sum := rfl
    have hstop' : StopsAt (some .power)
        (links .multiply (room + 1) ++ (links .add (room + 1) ++ rest)) :=
      stopsAt_links hmultiply (stopsAt_links hadd hstop _) _
    obtain ⟨size, rfl, hlength⟩ := exists_size_eq_succ htail hadvance
    apply powerOf_raised _ hadvance (hasRoom_some (by simp [Cursor.advance]; omega)) hstop'
    apply factorWithin_bar htail (hasRoom_some (by simp [Cursor.advance]; omega))
    intro c' htokens' hdepth'
    have hsize' : c'.tokens.length ≤ size := by rwa [htokens']
    apply ih htokens' hsize'
    · simp only [hdepth', Cursor.advance]
      omega
    · trivial
    · rw [Cursor.advance_tokens, List.length_tail]
      omega

/-- The bound for the paths of chains is the best one at every limit. -/
theorem pathWeight_run_steepTokens (hw : w.left = 1) (most : Nat) :
    (Grammar.chained.run (some most) (steepTokens most)).1.pathWeight w =
      expressionBound w most := by
  have hread : ReadsTo (steepExpr most) [] (Grammar.chained.run (some most) (steepTokens most)) :=
    expressionOf_steepTokens (List.append_nil _).symm (Nat.le_refl _) (Nat.zero_add most)
      (stopsAt_nil _)
  rw [hread.expr, pathWeight_steepExpr hw]

example : (Grammar.chained.run (some 1) (steepTokens 1)).1.height = 2 * 4 := by
  decide

theorem exists_read_pathWeight_eq (hw : w.left = 1) : ∃ tokens,
    (Grammar.chained.read tokens).expr.pathWeight w = expressionBound w deepestNesting := by
  have hread (tokens : List Token) : (Grammar.chained.read tokens).expr =
      (Grammar.chained.run (some deepestNesting) tokens).1 := rfl
  use steepTokens deepestNesting
  rw [hread, pathWeight_run_steepTokens hw]

/-- No bound on the height is better than the one that holds for all tokens. -/
theorem exists_read_height_eq : ∃ tokens,
    (Grammar.chained.read tokens).expr.height = (deepestNesting + 1) * (deepestNesting + 3) :=
  exists_read_pathWeight_eq rfl

/-! ### A chain alone -/

/-- The token may stand in a chain of the level that is alone. There are no operators of other
levels, no groups and no calls. -/
def StandsAlone (level : Level) : Token → Prop
  | .operator op => op.level = level
  | .openParen | .bar | .function _ => False
  | _ => True

/-- Where nothing comes but a chain of the level, the production reads no higher than the bound for
its room. -/
def LowAlone (level : Level) (most : Nat) (bound : Nat → Nat) (p : Production) : Prop :=
  ∀ c : Cursor, (∀ token ∈ c.tokens, StandsAlone level token) →
    (p c).1.unsignedHeight ≤ bound (c.room most)

section

variable {level own : Level} {most : Nat} {factor operand : Production}

theorem standsAlone_links (op : Operator) (count : Nat) :
    ∀ token ∈ links op count, StandsAlone op.level token := by
  induction count with
  | zero => exact fun token htoken => absurd htoken List.not_mem_nil
  | succ count ih => exact List.forall_mem_cons.mpr ⟨rfl, List.forall_mem_cons.mpr ⟨trivial, ih⟩⟩

theorem standsAlone_of_reaches {c' : Cursor} (h : c.Reaches c')
    (halone : ∀ token ∈ c.tokens, StandsAlone level token) :
    ∀ token ∈ c'.tokens, StandsAlone level token :=
  fun token htoken => halone token (h.tokens.subset htoken)

theorem peekOperator?_of_ne (hne : own ≠ level)
    (halone : ∀ token ∈ c.tokens, StandsAlone level token) : c.peekOperator? own = none := by
  cases hpeek : c.peekOperator? own with
  | none => rfl
  | some op =>
    obtain ⟨hown, htokens⟩ := Cursor.peekOperator?_eq_some hpeek
    have hop : op.level = level := halone (.operator op) (htokens ▸ List.mem_cons_self)
    exact absurd (hown.symm.trans hop) hne

theorem fold_of_ne (hne : own ≠ level) (halone : ∀ token ∈ c.tokens, StandsAlone level token)
    (first : Expr) : (fold limit own operand first c).1 = first := by
  rw [fold, foldWithin_of_peekOperator? (peekOperator?_of_ne hne halone)]

/-- Every link takes one off the room for the links after it. -/
theorem foldWithin_lowAlone (hframed : operand.Framed)
    (h : LowAlone level most (fun _ => 0) operand) (size : Nat) (left : Expr)
    (halone : ∀ token ∈ c.tokens, StandsAlone level token) :
    (foldWithin (some most) own operand size left c).1.unsignedHeight ≤
      left.unsignedHeight + c.room most := by
  induction size generalizing left c with
  | zero => exact Nat.le_add_right _ _
  | succ size ih =>
    rw [foldWithin_succ]
    rcases c.takeFold_cases (some most) own with ⟨_, ht⟩ | ⟨op, _, _, ht⟩ | ⟨op, _, hfull, ht⟩
    · rw [ht]
      exact Nat.le_add_right _ _
    · rw [ht]
      exact Nat.le_add_right _ _
    · rw [ht]
      have hlink : c.Reaches c.advance.descend := c.reaches_advance.trans (Cursor.reaches_descend _)
      have hnext := standsAlone_of_reaches hlink halone
      have hright : (operand c.advance.descend).1.unsignedHeight ≤ 0 := h _ hnext
      have hchain := ih (.binary op left (operand c.advance.descend).1)
        (standsAlone_of_reaches (hframed.reaches _) hnext)
      have hroom : c.room most = c.advance.descend.room most + 1 := c.room_of_not_isFull hfull
      have hafter : (operand c.advance.descend).2.room most = c.advance.descend.room most :=
        Cursor.room_eq_of_depth (hframed.depth _)
      rw [Expr.unsignedHeight_binary, hafter] at hchain
      exact Nat.le_trans hchain (by omega)

theorem fold_lowAlone (hframed : operand.Framed) (h : LowAlone level most (fun _ => 0) operand)
    {first : Expr} (hfirst : first.unsignedHeight ≤ 0)
    (halone : ∀ token ∈ c.tokens, StandsAlone level token) :
    (fold (some most) own operand first c).1.unsignedHeight ≤ c.room most := by
  have hchain : (foldWithin (some most) own operand c.tokens.length first c).1.unsignedHeight ≤
      first.unsignedHeight + c.room most := foldWithin_lowAlone hframed h _ first halone
  exact Nat.le_trans hchain (by omega)

theorem powerWithin_lowAlone (hframed : factor.Framed)
    (h : LowAlone .power most (fun _ => 0) factor) (size : Nat) :
    LowAlone .power most id (powerWithin (some most) factor size) := by
  induction size with
  | zero => exact fun c halone => Nat.le_trans (h c halone) (Nat.zero_le _)
  | succ size ih =>
    intro c halone
    have hbase : (factor c).1.unsignedHeight ≤ 0 := h c halone
    rw [powerWithin_succ]
    rcases (factor c).2.takeFold_cases (some most) .power with
      ⟨_, ht⟩ | ⟨op, _, _, ht⟩ | ⟨op, _, hfull, ht⟩
    · rw [ht]
      exact Nat.le_trans hbase (Nat.zero_le _)
    · rw [ht]
      exact Nat.le_trans hbase (Nat.zero_le _)
    · rw [ht]
      have hlink : c.Reaches (factor c).2.advance.descend :=
        (hframed.reaches c).trans ((Cursor.reaches_advance _).trans (Cursor.reaches_descend _))
      have hexponent := ih _ (standsAlone_of_reaches hlink halone)
      have hroom : (factor c).2.room most = (factor c).2.advance.descend.room most + 1 :=
        (factor c).2.room_of_not_isFull hfull
      rw [Cursor.room_eq_of_depth (hframed.depth c)] at hroom
      simp only [Expr.unsignedHeight_binary, id] at hexponent ⊢
      omega

/-- How high the productions of a level read a chain alone of the given level. The chain is read
where it is as tight as they are, or tighter. -/
def roomFrom (own level : Level) (room : Nat) : Nat :=
  if own.strength ≤ level.strength then room else 0

theorem powerOf_lowAlone (hframed : factor.Framed) (h : LowAlone level most (fun _ => 0) factor) :
    LowAlone level most (roomFrom .power level) (powerOf (some most) factor) := by
  intro c halone
  cases level with
  | power => exact powerWithin_lowAlone hframed h _ c halone
  | sum | product =>
    have hafter := standsAlone_of_reaches (hframed.reaches c) halone
    rw [powerOf, powerWithin_of_peekOperator? (peekOperator?_of_ne (by decide) hafter)]
    exact h c halone

theorem termOf_lowAlone (hframed : factor.Framed) (h : LowAlone level most (fun _ => 0) factor) :
    LowAlone level most (roomFrom .product level) (termOf (some most) factor) := by
  have hpowerFramed := powerOf_framed (some most) hframed
  have hpower := powerOf_lowAlone hframed h
  intro c halone
  have hafter := standsAlone_of_reaches (hpowerFramed.reaches c) halone
  have hfirst := hpower c halone
  rw [termOf_eq]
  cases level with
  | product =>
    have hroom : (powerOf (some most) factor c).2.room most = c.room most :=
      Cursor.room_eq_of_depth (hpowerFramed.depth c)
    exact hroom ▸ fold_lowAlone hpowerFramed hpower hfirst hafter
  | sum | power =>
    rw [fold_of_ne (by decide) hafter]
    exact hfirst

theorem leadingTerm_lowAlone (hframed : factor.Framed)
    (h : LowAlone level most (fun _ => 0) factor) :
    LowAlone level most (roomFrom .product level) (leadingTerm (some most) factor) := by
  have hterm := termOf_lowAlone hframed h
  intro c halone
  unfold leadingTerm
  split
  · exact hterm c.advance (standsAlone_of_reaches c.reaches_advance halone)
  · exact hterm c halone

theorem expressionOf_lowAlone (hframed : factor.Framed)
    (h : LowAlone level most (fun _ => 0) factor) :
    LowAlone level most id (expressionOf (some most) factor) := by
  have hleadingFramed := leadingTerm_framed (some most) hframed
  have hleading := leadingTerm_lowAlone hframed h
  intro c halone
  have hafter := standsAlone_of_reaches (hleadingFramed.reaches c) halone
  have hfirst := hleading c halone
  rw [expressionOf_eq]
  cases level with
  | sum =>
    have hroom : (leadingTerm (some most) factor c).2.room most = c.room most :=
      Cursor.room_eq_of_depth (hleadingFramed.depth c)
    have htermFramed := termOf_framed (some most) hframed
    exact hroom ▸ fold_lowAlone htermFramed (termOf_lowAlone hframed h) hfirst hafter
  | product | power =>
    rw [fold_of_ne (by decide) hafter]
    exact hfirst

theorem LowAlone.nested {p : Production} (h : LowAlone level most (fun _ => 0) p) :
    LowAlone level most (fun _ => 0) (p.nested (some most)) := by
  intro c halone
  unfold Production.nested
  split
  · exact Nat.le_refl 0
  · exact h c.descend halone

/-- A sign is only before a factor where the chain is one of sums, and then no power is a chain. -/
theorem factorWithin_lowAlone (most size : Nat) :
    LowAlone level most (fun _ => 0) (factorWithin (some most) size) := by
  induction size with
  | zero => exact fun c _ => Nat.le_refl 0
  | succ size ih =>
    have hpower := powerOf_lowAlone (factorWithin_framed (some most) size) ih
    intro c halone
    unfold factorWithin
    split
    · rename_i op rest htokens
      split
      · rename_i sign hsign
        have hop : op.level = level := halone (.operator op) (htokens ▸ List.mem_cons_self)
        obtain rfl : level = .sum := hop.symm.trans (Operator.level_of_sign? hsign)
        exact LowAlone.nested hpower c.advance (standsAlone_of_reaches c.reaches_advance halone)
      · exact Nat.le_refl 0
    · exact Nat.le_refl 0
    · exact Nat.le_refl 0
    · rename_i htokens
      exact absurd (halone .openParen (htokens ▸ List.mem_cons_self)) id
    · rename_i f _ htokens
      exact absurd (halone (.function f) (htokens ▸ List.mem_cons_self)) id
    · rename_i htokens
      exact absurd (halone .bar (htokens ▸ List.mem_cons_self)) id
    · exact Nat.le_refl 0

/-- A chain alone keeps to the limit. -/
theorem run_unsignedHeight_le (most : Nat) {tokens : List Token}
    (h : ∀ token ∈ tokens, StandsAlone level token) :
    (Grammar.chained.run (some most) tokens).1.unsignedHeight ≤ most :=
  expressionOf_lowAlone (factorWithin_framed _ _) (factorWithin_lowAlone most _) { tokens } h

end

/-! ### Chains in chains -/

/-- A chain alone keeps to the limit, and so do the operations and calls on every path that takes no
left operand. The first operands of chains in chains are deeper, up to a bound that is the best
one. -/
theorem read_unsignedHeight_le (tokens : List Token) :
    (∀ level, (∀ token ∈ tokens, StandsAlone level token) →
      (Grammar.chained.read tokens).expr.unsignedHeight ≤ deepestNesting) ∧
    (Grammar.chained.read tokens).expr.rightHeight ≤ deepestNesting + 1 ∧
    (Grammar.chained.read tokens).expr.unsignedHeight ≤
      deepestNesting * (deepestNesting + 3) + 1 ∧
    ∃ steepest, (Grammar.chained.read steepest).expr.unsignedHeight =
      deepestNesting * (deepestNesting + 3) + 1 := by
  have hbound : expressionBound { leaf := 0, sign := 0, left := 1 } deepestNesting =
      deepestNesting * (deepestNesting + 3) + 1 := rfl
  rw [← hbound]
  refine ⟨?_, ?_, ?_, exists_read_pathWeight_eq rfl⟩
  · exact fun level halone => run_unsignedHeight_le deepestNesting halone
  · exact run_weight_le (Nat.zero_le 1) deepestNesting tokens
  · exact run_weight_le (Nat.zero_le 1) deepestNesting tokens

/-- A sum of more links than the limit allows is cut off there. -/
theorem read_unsignedHeight_le_sum :
    let tokens : List Token := .letter .x :: links .add 300
    (∀ token ∈ tokens, StandsAlone .sum token) ∧
      (Grammar.chained.read tokens).tooDeep = true ∧
      (Grammar.chained.read tokens).expr.unsignedHeight ≤ 256 := by
  intro tokens
  have halone : ∀ token ∈ tokens, StandsAlone .sum token :=
    List.forall_mem_cons.mpr ⟨trivial, standsAlone_links .add 300⟩
  exact ⟨halone, by decide +kernel, (read_unsignedHeight_le tokens).1 .sum halone⟩

/-- A product of as many links as the limit allows is read as the first term of a sum, and the limit
is not reported. -/
theorem read_product_in_sum_exceeds_limit :
    let tokens : List Token := .letter .x :: (links .multiply 256 ++ links .add 2)
    (Grammar.chained.read tokens).tooDeep = false ∧
      ¬ (Grammar.chained.read tokens).expr.unsignedHeight ≤ deepestNesting + 1 := by
  decide +kernel

end Formula.Chained
