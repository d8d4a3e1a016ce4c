import Mathlib.Tactic.Ring
import Formula.Proofs.Grammar.Frame
import Formula.Proofs.Expr.Shape

/-!
# The limit on the depth bounds the height

How high the expression of a production is depends on the room that is left below the limit. In
the grammar of single operators the height is linear in the room. A chain gives its room back when
it ends, so the chain around it can be as long again, and the height of chains is quadratic.
-/

set_option autoImplicit false

namespace Formula

namespace Cursor

variable {most : Nat}

/-- How much deeper the reader may go. -/
def room (most : Nat) (c : Cursor) : Nat :=
  most - c.depth

theorem room_eq_of_depth {c c' : Cursor} (h : c'.depth = c.depth) : c'.room most = c.room most :=
  congrArg (most - ·) h

theorem isFull_iff (c : Cursor) : c.isFull (some most) = true ↔ c.room most = 0 := by
  simp [isFull, room, Nat.sub_eq_zero_iff_le]

/-- A step down takes one off the room, if there is any. -/
theorem room_of_not_isFull {c : Cursor} (h : c.isFull (some most) = false) :
    c.room most = c.descend.room most + 1 := by
  have hroom : c.room most ≠ 0 := fun hzero => by simp [c.isFull_iff.mpr hzero] at h
  simp only [room, descend_depth] at hroom ⊢
  omega

end Cursor

namespace Single

/-- Whatever has been displaced from the first cursor to the second is no higher. -/
def Displaces (height : Nat) (c c' : Cursor) : Prop :=
  ∀ e ∈ c'.displaced, e ∈ c.displaced ∨ e.height ≤ height

/-- The result and whatever has been displaced for it are no higher. -/
structure Within (height : Nat) (c : Cursor) (result : Expr × Cursor) : Prop where
  expr : result.1.height ≤ height
  displaced : Displaces height c result.2

/-- How high the production reads depends on the room that it has. -/
def Bounded (most : Nat) (bound : Nat → Nat) (p : Production) : Prop :=
  ∀ c, Within (bound (c.room most)) c (p c)

variable {most n m : Nat} {bound : Nat → Nat} {c : Cursor} {factor operand : Production}

theorem displaces_of_eq {c' : Cursor} (h : c'.displaced = c.displaced) : Displaces n c c' :=
  fun _ he => .inl (h ▸ he)

theorem Displaces.mono {c' : Cursor} (h : Displaces n c c') (hle : n ≤ m) : Displaces m c c' :=
  fun e he => (h e he).imp id fun hn => Nat.le_trans hn hle

theorem Displaces.trans {c₁ c₂ c₃ : Cursor} (h₁ : Displaces n c₁ c₂) (h₂ : Displaces n c₂ c₃) :
    Displaces n c₁ c₃ := by
  intro e he
  rcases h₂ e he with he | hn
  · exact h₁ e he
  · exact .inr hn

theorem Within.mono {result : Expr × Cursor} (h : Within n c result) (hle : n ≤ m) :
    Within m c result :=
  ⟨Nat.le_trans h.expr hle, h.displaced.mono hle⟩

theorem displaces_signCursor {before : Expr} (h : before.height ≤ n) (op : Operator)
    (c : Cursor) : Displaces n c (signCursor before op c) := by
  intro e he
  unfold signCursor at he
  split at he
  · exact .inl he
  · rcases List.mem_append.mp he with he | he
    · exact .inl he
    · rw [List.mem_singleton.mp he]
      exact .inr h

theorem joined_bounded (level : Level) (hframed : operand.Framed)
    (h : Bounded most bound operand) :
    Bounded most (fun room => bound room + 1) (joined level operand) := by
  intro c
  have hfirst := h c
  rw [joined_eq]
  split
  · exact hfirst.mono (Nat.le_succ _)
  · have hroom : (operand c).2.advance.room most = c.room most :=
      Cursor.room_eq_of_depth (hframed.depth c)
    have hsecond := h (operand c).2.advance
    rw [hroom] at hsecond
    have hadvance : Displaces (bound (c.room most)) c (operand c).2.advance := hfirst.displaced
    refine ⟨?_, (hadvance.trans hsecond.displaced).mono (Nat.le_succ _)⟩
    exact Nat.max_le.mpr ⟨Nat.succ_le_succ hfirst.expr, Nat.succ_le_succ hsecond.expr⟩

theorem powerOf_bounded (hframed : factor.Framed) (h : Bounded most bound factor) :
    Bounded most (fun room => bound room + 1) (powerOf factor) :=
  joined_bounded .power hframed h

theorem termOf_bounded (hframed : factor.Framed) (h : Bounded most bound factor) :
    Bounded most (fun room => bound room + 2) (termOf factor) :=
  joined_bounded .product (powerOf_framed hframed) (powerOf_bounded hframed h)

/-- A signed term is higher than its term by the sign. -/
theorem signedTerm_within (hframed : factor.Framed) (h : Bounded most bound factor)
    (before : Expr) (op : Operator) (c : Cursor)
    (hbefore : before.height ≤ bound (c.room most) + 2) :
    Within (bound (c.room most) + 3) c (signedTerm factor before op c) := by
  have hroom : (signCursor before op c).room most = c.room most :=
    Cursor.room_eq_of_depth (by unfold signCursor; split <;> rfl)
  have hterm := termOf_bounded hframed h (signCursor before op c)
  simp only [hroom] at hterm
  have hdisplaced := (displaces_signCursor hbefore op c).trans hterm.displaced
  rw [signedTerm_eq]
  split
  · exact ⟨Nat.succ_le_succ hterm.expr, hdisplaced.mono (Nat.le_succ _)⟩
  · exact ⟨Nat.le_succ_of_le hterm.expr, hdisplaced.mono (Nat.le_succ _)⟩

theorem expressionOf_bounded (hframed : factor.Framed) (h : Bounded most bound factor) :
    Bounded most (fun room => bound room + 3) (expressionOf factor) := by
  intro c
  have hfirst := termOf_bounded hframed h c
  have hroom : (termOf factor c).2.advance.room most = c.room most :=
    Cursor.room_eq_of_depth ((termOf_framed hframed).depth c)
  have hadvance : Displaces (bound (c.room most) + 2) c (termOf factor c).2.advance :=
    hfirst.displaced
  rw [expressionOf_eq]
  split
  · exact hfirst.mono (Nat.le_succ _)
  · rename_i op _
    split
    · have hsigned := signedTerm_within hframed h (termOf factor c).1 op
        (termOf factor c).2.advance (by rw [hroom]; exact hfirst.expr)
      rw [hroom] at hsigned
      exact ⟨hsigned.expr, (hadvance.mono (Nat.le_succ _)).trans hsigned.displaced⟩
    · have hsecond := termOf_bounded hframed h (termOf factor c).2.advance
      simp only [hroom] at hsecond
      refine ⟨?_, (hadvance.trans hsecond.displaced).mono (Nat.le_succ _)⟩
      exact Nat.max_le.mpr ⟨Nat.succ_le_succ hfirst.expr, Nat.succ_le_succ hsecond.expr⟩

/-- At the limit, a call of nothing is the highest factor. -/
def factorBound (room : Nat) : Nat :=
  4 * room + 2

/-- What is read one level deeper may get one node on top. -/
theorem Bounded.nested_within {p : Production} (h : Bounded most bound p)
    (hbound : ∀ room, bound room < factorBound (room + 1)) (c : Cursor) :
    (p.nested (some most) c).1.height + 1 ≤ factorBound (c.room most) ∧
      Displaces (factorBound (c.room most)) c (p.nested (some most) c).2 := by
  unfold Production.nested
  split
  · refine ⟨?_, displaces_of_eq c.reportDepth_displaced⟩
    exact Nat.le_add_left _ _
  · rename_i hfull
    have hroom := c.room_of_not_isFull (eq_false_of_ne_true hfull)
    have hlt := hbound (c.descend.room most)
    have hread := h c.descend
    rw [hroom]
    exact ⟨Nat.lt_of_le_of_lt hread.expr hlt, hread.displaced.mono (Nat.le_of_lt hlt)⟩

theorem factorWithin_bounded (most size : Nat) :
    Bounded most factorBound (factorWithin (some most) size) := by
  have hleaf (room : Nat) : 1 ≤ factorBound room := Nat.le_add_left 1 (4 * room + 1)
  induction size with
  | zero => exact fun c => ⟨hleaf _, displaces_of_eq rfl⟩
  | succ size ih =>
    have hframed := factorWithin_framed (some most) size
    have hgroup := (expressionOf_bounded hframed ih).nested_within
      (by intro room; simp only [factorBound]; omega)
    have hcall := ih.nested_within (by intro room; simp only [factorBound]; omega)
    intro c
    unfold factorWithin
    split
    · exact ⟨hleaf _, displaces_of_eq rfl⟩
    · exact ⟨hleaf _, displaces_of_eq rfl⟩
    · obtain ⟨hexpr, hdisplaced⟩ := hgroup (c.advance.note (.factor .openParen))
      exact ⟨Nat.le_of_succ_le hexpr, hdisplaced⟩
    · obtain ⟨hexpr, hdisplaced⟩ := hcall (c.advance.note (.factor (.function _)))
      exact ⟨hexpr, hdisplaced⟩
    · obtain ⟨hexpr, hdisplaced⟩ := hgroup (c.advance.note (.factor .bar))
      exact ⟨hexpr, hdisplaced⟩
    · exact ⟨hleaf _, displaces_of_eq rfl⟩

theorem run_height_le (most : Nat) (tokens : List Token) :
    Within (4 * most + 5) { tokens } (Grammar.single.run (some most) tokens) :=
  expressionOf_bounded (factorWithin_framed _ _) (factorWithin_bounded most _) { tokens }

end Single

namespace Chained

/-- How heavy the paths of what the production reads are depends on the room that it has. -/
def Bounded (w : Expr.PathWeights) (most : Nat) (bound : Nat → Nat) (p : Production) : Prop :=
  ∀ c, (p c).1.pathWeight w ≤ bound (c.room most)

/-- Each level of the room is good for a node of its own and a sign, and for a chain of products and
one of sums around the levels below it. -/
def powerBound (w : Expr.PathWeights) (room : Nat) : Nat :=
  w.leaf + 1 + room * (1 + w.sign + w.left * room)

/-- A term has as many links as there is room, on top of its first power. -/
def termBound (w : Expr.PathWeights) (room : Nat) : Nat :=
  powerBound w room + w.left * room

def expressionBound (w : Expr.PathWeights) (room : Nat) : Nat :=
  termBound w room + w.sign + w.left * room

/-- At the limit, a call of nothing is the heaviest factor, and elsewhere a group in pipes. -/
def factorBound (w : Expr.PathWeights) : Nat → Nat
  | 0 => w.leaf + 1
  | room + 1 => expressionBound w room + 1

variable {w : Expr.PathWeights} {most : Nat} {bound : Nat → Nat} {factor operand : Production}

theorem powerBound_succ (w : Expr.PathWeights) (room : Nat) :
    powerBound w (room + 1) = factorBound w (room + 1) + w.left := by
  simp only [powerBound, factorBound, expressionBound, termBound]
  ring

theorem powerBound_lt_factorBound (w : Expr.PathWeights) (room : Nat) :
    powerBound w room < factorBound w (room + 1) := by
  simp only [factorBound, expressionBound, termBound]
  omega

theorem factorBound_le_powerBound (w : Expr.PathWeights) (room : Nat) :
    factorBound w room ≤ powerBound w room := by
  cases room with
  | zero => exact Nat.le_add_right _ _
  | succ room =>
    rw [powerBound_succ]
    exact Nat.le_add_right _ _

theorem powerBound_strictMono (w : Expr.PathWeights) : StrictMono (powerBound w) :=
  strictMono_nat_of_lt_succ fun room =>
    Nat.lt_of_lt_of_le (powerBound_lt_factorBound w room) (factorBound_le_powerBound w _)

theorem leaf_lt_factorBound (w : Expr.PathWeights) (room : Nat) : w.leaf < factorBound w room := by
  cases room with
  | zero => exact Nat.lt_succ_self _
  | succ room =>
    have hpower : w.leaf + 1 ≤ powerBound w room := Nat.le_add_right _ _
    exact Nat.lt_of_lt_of_le hpower (Nat.le_of_lt (powerBound_lt_factorBound w room))

/-- A link takes one off the room, and makes what has been read a left operand. So the links of a
chain add no more to what it starts with than its room. -/
theorem foldWithin_weight_le {level : Level} (hframed : operand.Framed)
    (h : Bounded w most bound operand) (total size : Nat) (left : Expr) (c : Cursor)
    (hbound : ∀ room < c.room most, bound room + 1 + w.left * room ≤ total)
    (hleft : left.pathWeight w + w.left * c.room most ≤ total) :
    (foldWithin (some most) level operand size left c).1.pathWeight w ≤ total := by
  induction size generalizing left c with
  | zero => exact Nat.le_trans (Nat.le_add_right _ _) hleft
  | succ size ih =>
    rw [foldWithin_succ]
    rcases c.takeFold_cases (some most) level with ⟨_, ht⟩ | ⟨op, _, _, ht⟩ | ⟨op, _, hfull, ht⟩
    · simp only [ht]
      exact Nat.le_trans (Nat.le_add_right _ _) hleft
    · simp only [ht]
      exact Nat.le_trans (Nat.le_add_right _ _) hleft
    · simp only [ht]
      have hroom : c.room most = c.advance.descend.room most + 1 := c.room_of_not_isFull hfull
      have hafter : (operand c.advance.descend).2.room most = c.advance.descend.room most :=
        Cursor.room_eq_of_depth (hframed.depth _)
      have hright := h c.advance.descend
      have hlink := hbound (c.advance.descend.room most) (by omega)
      -- What the link weighs is made up for by the room that it takes.
      rw [hroom, Nat.mul_succ] at hleft
      apply ih
      · intro room hlt
        exact hbound room (by omega)
      · rw [hafter, Expr.pathWeight]
        omega

theorem powerWithin_bounded (hframed : factor.Framed)
    (h : Bounded w most (factorBound w) factor) (size : Nat) :
    Bounded w most (powerBound w) (powerWithin (some most) factor size) := by
  have hbase (c : Cursor) : (factor c).1.pathWeight w ≤ powerBound w (c.room most) :=
    Nat.le_trans (h c) (factorBound_le_powerBound w _)
  induction size with
  | zero => exact hbase
  | succ size ih =>
    intro c
    rw [powerWithin_succ]
    rcases (factor c).2.takeFold_cases (some most) .power with
      ⟨_, ht⟩ | ⟨op, _, _, ht⟩ | ⟨op, _, hfull, ht⟩
    · simp only [ht]
      exact hbase c
    · simp only [ht]
      exact hbase c
    · simp only [ht]
      have hsame : (factor c).2.room most = c.room most :=
        Cursor.room_eq_of_depth (hframed.depth c)
      have hroom : (factor c).2.room most = (factor c).2.advance.descend.room most + 1 :=
        (factor c).2.room_of_not_isFull hfull
      have hleft := h c
      have hright := ih (factor c).2.advance.descend
      have hlt := powerBound_lt_factorBound w ((factor c).2.advance.descend.room most)
      rw [← hsame, hroom] at hleft ⊢
      rw [powerBound_succ, Expr.pathWeight]
      omega

theorem powerOf_bounded (hframed : factor.Framed) (h : Bounded w most (factorBound w) factor) :
    Bounded w most (powerBound w) (powerOf (some most) factor) :=
  fun c => powerWithin_bounded hframed h c.tokens.length c

theorem termOf_bounded (hframed : factor.Framed) (h : Bounded w most (factorBound w) factor) :
    Bounded w most (termBound w) (termOf (some most) factor) := by
  have hpowerFramed := powerOf_framed (some most) hframed
  have hpower := powerOf_bounded hframed h
  intro c
  have hroom : (powerOf (some most) factor c).2.room most = c.room most :=
    Cursor.room_eq_of_depth (hpowerFramed.depth c)
  rw [termOf_eq]
  apply foldWithin_weight_le hpowerFramed hpower
  · intro room hlt
    rw [hroom] at hlt
    have hpowers := powerBound_strictMono w hlt
    have hlinks := Nat.mul_le_mul_left w.left (Nat.le_of_lt hlt)
    simp only [termBound]
    omega
  · rw [hroom]
    exact Nat.add_le_add_right (hpower c) _

theorem leadingTerm_weight_le (hframed : factor.Framed)
    (h : Bounded w most (factorBound w) factor) (c : Cursor) :
    (leadingTerm (some most) factor c).1.pathWeight w ≤ termBound w (c.room most) + w.sign := by
  have hterm := termOf_bounded hframed h
  unfold leadingTerm
  split
  · exact Nat.add_le_add_right (hterm c.advance) w.sign
  · exact Nat.le_trans (hterm c) (Nat.le_add_right _ _)

theorem expressionOf_bounded (hframed : factor.Framed)
    (h : Bounded w most (factorBound w) factor) :
    Bounded w most (expressionBound w) (expressionOf (some most) factor) := by
  have htermFramed := termOf_framed (some most) hframed
  have hterm := termOf_bounded hframed h
  intro c
  have hroom : (leadingTerm (some most) factor c).2.room most = c.room most :=
    Cursor.room_eq_of_depth ((leadingTerm_framed (some most) hframed).depth c)
  rw [expressionOf_eq]
  apply foldWithin_weight_le htermFramed hterm
  · intro room hlt
    rw [hroom] at hlt
    have hpowers := powerBound_strictMono w hlt
    have hlinks := Nat.mul_le_mul_left w.left (Nat.le_of_lt hlt)
    simp only [expressionBound, termBound]
    omega
  · rw [hroom]
    exact Nat.add_le_add_right (leadingTerm_weight_le hframed h c) _

/-- What is read one level deeper may get one node on top. -/
theorem Bounded.nested_weight_lt {p : Production} (h : Bounded w most bound p)
    (hbound : ∀ room, bound room < factorBound w (room + 1)) (c : Cursor) :
    (p.nested (some most) c).1.pathWeight w < factorBound w (c.room most) := by
  unfold Production.nested
  split
  · exact leaf_lt_factorBound w _
  · rename_i hfull
    rw [c.room_of_not_isFull (eq_false_of_ne_true hfull)]
    exact Nat.lt_of_le_of_lt (h c.descend) (hbound _)

theorem factorWithin_bounded (most size : Nat) (hsign : w.sign ≤ 1) :
    Bounded w most (factorBound w) (factorWithin (some most) size) := by
  have hleaf (room : Nat) : w.leaf ≤ factorBound w room :=
    Nat.le_of_lt (leaf_lt_factorBound w room)
  induction size with
  | zero => exact fun c => hleaf _
  | succ size ih =>
    have hframed := factorWithin_framed (some most) size
    have hgroup := (expressionOf_bounded hframed ih).nested_weight_lt
      fun _ => Nat.lt_succ_self _
    have hpower := (powerOf_bounded hframed ih).nested_weight_lt (powerBound_lt_factorBound w)
    have hcall := ih.nested_weight_lt fun room =>
      Nat.lt_of_le_of_lt (factorBound_le_powerBound w room) (powerBound_lt_factorBound w room)
    intro c
    unfold factorWithin
    split
    · split
      · exact Nat.le_trans (Nat.add_le_add_left hsign _) (hpower c.advance)
      · exact hleaf _
    · exact hleaf _
    · exact hleaf _
    · exact Nat.le_of_lt (hgroup (c.advance.note (.factor .openParen)))
    · exact hcall (c.advance.note (.factor (.function _)))
    · exact hgroup (c.advance.note (.factor .bar))
    · exact hleaf _

theorem run_weight_le (hsign : w.sign ≤ 1) (most : Nat) (tokens : List Token) :
    (Grammar.chained.run (some most) tokens).1.pathWeight w ≤ expressionBound w most :=
  expressionOf_bounded (factorWithin_framed _ _) (factorWithin_bounded most _ hsign) { tokens }

end Chained

/-- Whatever the tokens are, both grammars read trees of a bounded height. -/
theorem Grammar.read_height_le (tokens : List Token) :
    (∀ e ∈ (Grammar.single.read tokens).expr :: (Grammar.single.read tokens).displaced,
      e.height ≤ 4 * deepestNesting + 5) ∧
    (Grammar.chained.read tokens).expr.height ≤ (deepestNesting + 1) * (deepestNesting + 3) := by
  constructor
  · have hwithin := Single.run_height_le deepestNesting tokens
    intro e he
    rcases List.mem_cons.mp he with rfl | he
    · exact hwithin.expr
    · rcases hwithin.displaced e he with he | hle
      · cases he
      · exact hle
  · exact Chained.run_weight_le (Nat.le_refl 1) deepestNesting tokens

end Formula
