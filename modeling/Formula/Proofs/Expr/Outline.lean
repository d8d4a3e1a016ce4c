import Formula.Expr.Outline
import Formula.Proofs.Decimal.Plain
import Formula.Proofs.Expr.Shape
import Formula.Proofs.Text.Item
import Formula.Proofs.Token.Lexer

/-!
# A drawing shows the whole tree

The walk through a tree hands over one item for each node, below the item of its parent, and closes
every item that it opens. So a printer that draws items as documented draws a line for each node,
parents first, and trees whose numbers have different texts have different drawings.
-/

set_option autoImplicit false

namespace Formula

theorem Operator.symbol_inj {op op' : Operator}
    (h : op.symbol.toString = op'.symbol.toString) : op = op' := by
  have hsymbol : op.symbol = op'.symbol := by simpa using h
  rw [← Option.some_inj, ← ofSymbol?_symbol, hsymbol, ofSymbol?_symbol]

theorem Letter.symbol_inj {v v' : Letter} (h : v.symbol.toString = v'.symbol.toString) :
    v = v' := by
  have hsymbol : v.symbol = v'.symbol := by simpa using h
  rw [← Option.some_inj, ← ofSymbol?_symbol, hsymbol, ofSymbol?_symbol]

theorem Sign.operator_inj {sign sign' : Sign} (h : sign.operator = sign'.operator) :
    sign = sign' := by
  rw [← Option.some_inj, ← Operator.sign?_operator, h, Operator.sign?_operator]

theorem Elementary.name_inj {f f' : Elementary} (h : f.name = f'.name) : f = f' := by
  rw [← Option.some_inj, ← f.leading?_name_append [], h, leading?_name_append]

namespace Expr

open Text (Item OpenItem ItemPrinter lowered)

/-- The operands of the root, from left to right. -/
def children : Expr → List Expr
  | missing | number _ | letter _ => []
  | binary _ left right => [left, right]
  | signed _ operand | absolute operand => [operand]
  | call _ argument => [argument]

@[elab_as_elim]
theorem children_induction {motive : Expr → Prop}
    (node : ∀ e, (∀ child ∈ e.children, motive child) → motive e) (e : Expr) : motive e := by
  induction e with
  | missing | number | letter => exact node _ fun child h => absurd h List.not_mem_nil
  | binary op left right ihl ihr =>
    apply node
    intro child h
    rcases List.mem_pair.mp h with rfl | rfl
    · exact ihl
    · exact ihr
  | signed sign operand ih | absolute operand ih | call f operand ih =>
    apply node
    intro child h
    rw [List.mem_singleton.mp h]
    exact ih

/-- The nodes of a tree with their depths below the root. Parents come before children, and what is
on the left before what is on the right. -/
def preorder : Expr → List (Nat × Expr)
  | binary op left right =>
    (0, binary op left right) :: lowered (left.preorder ++ right.preorder)
  | signed sign operand => (0, signed sign operand) :: lowered operand.preorder
  | absolute operand => (0, absolute operand) :: lowered operand.preorder
  | call f argument => (0, call f argument) :: lowered argument.preorder
  | e => [(0, e)]

theorem accept_counter (e : Expr) (count : Nat) :
    e.accept counter count = count + e.preorder.length := by
  induction e generalizing count with
  | missing | number | letter => rfl
  | binary op left right ihl ihr =>
    simp only [accept, counter, walkBinary, preorder, lowered, List.length_cons, List.length_map,
      List.length_append] at ihl ihr ⊢
    rw [ihl, ihr]
    omega
  | signed sign operand ih | absolute operand ih | call f operand ih =>
    simp only [accept, counter, preorder, lowered, List.length_cons, List.length_map] at ih ⊢
    rw [ih]
    omega

theorem length_preorder (e : Expr) : e.preorder.length = e.size := by
  rw [size, accept_counter, Nat.zero_add]

/-- What a node is called in a drawing. -/
def label : Expr → String
  | missing => "(empty)"
  | number value => plainText value
  | letter v => v.symbol.toString
  | binary op _ _ => op.symbol.toString
  | signed sign _ => sign.operator.symbol.toString
  | absolute _ => "abs"
  | call f _ => f.name

/-- The item of the root, with those of the other nodes below it. -/
def item : Expr → Item
  | binary op left right => .node (binary op left right).label [left.item, right.item]
  | signed sign operand => .node (signed sign operand).label [operand.item]
  | absolute operand => .node (absolute operand).label [operand.item]
  | call f argument => .node (call f argument).label [argument.item]
  | e => .node e.label []

theorem item_eq (e : Expr) : e.item = .node e.label (e.children.map item) := by
  cases e <;> rfl

/-! ### The items that are handed over -/

section

variable {p : ItemPrinter} {view : p.Builder → OpenItem} (hp : p.Documented view)
include hp

/-- An item that is closed after the walk stands below the one that was open before, with what came
on the walk below it. -/
theorem view_enclosed {walk : p.Builder → p.Builder} {below : List Item} (text : String)
    (hwalk : ∀ b, view (walk b) = (view b).addChildren below) (b : p.Builder) :
    view (enclosed p text walk b) = (view b).addChildren [.node text below] := by
  have hopen : view (walk (p.beginChild b text)) = ((view b).beginChild text).addChildren below := by
    rw [hwalk, hp.beginChild]
  have hparents : (view (walk (p.beginChild b text))).parents ≠ [] := by
    rw [hopen]
    exact List.cons_ne_nil _ _
  rw [enclosed, hp.endChild _ hparents, hopen]
  rfl

/-- The walk through a tree adds its item, and leaves no other one open than before. -/
theorem view_accept (e : Expr) (b : p.Builder) :
    view (e.accept (outliner p) b) = (view b).addChildren [e.item] := by
  induction e generalizing b with
  | missing => exact hp.addLeaf b _
  | number value => exact hp.addLeaf b _
  | letter v => exact hp.addLeaf b _
  | binary op left right ihl ihr =>
    apply view_enclosed hp
    intro b
    rw [walkBinary, ihr, ihl, OpenItem.addChildren_addChildren, List.singleton_append]
  | signed sign operand ih => exact view_enclosed hp _ ih b
  | absolute operand ih => exact view_enclosed hp _ ih b
  | call f argument ih => exact view_enclosed hp _ ih b

theorem view_built (e : Expr) :
    view (e.accept (outliner p) (p.start "expression")) = ⟨.node "expression" [e.item], []⟩ := by
  rw [view_accept hp, hp.start]
  rfl

end

/-! ### The rows of the items -/

theorem rows_item (e : Expr) : e.item.rows = e.preorder.map fun (depth, e) => (depth, e.label) := by
  have hlowered (rows : List (Nat × Expr)) :
      lowered (rows.map fun (depth, e) => (depth, e.label)) =
        (lowered rows).map fun (depth, e) => (depth, e.label) := by
    simp [lowered]
  induction e with
  | missing | number | letter => rfl
  | binary op left right ihl ihr =>
    simp only [item, Item.rows_node, List.flatMap_cons, List.flatMap_nil, List.append_nil, ihl, ihr,
      preorder, List.map_cons, ← hlowered, List.map_append]
  | signed sign operand ih | absolute operand ih | call f operand ih =>
    simp only [item, Item.rows_node, List.flatMap_cons, List.flatMap_nil, List.append_nil, ih,
      preorder, List.map_cons, ← hlowered]

theorem bare_plainText (value : Float) : Text.Bare (plainText value) := by
  intro c hc hcell
  simp only [List.mem_cons, List.not_mem_nil, or_false] at hcell
  rcases mem_plainText hc with h | h
  · rcases hcell with rfl | rfl | rfl | rfl | rfl <;> cases h
  · rcases hcell with rfl | rfl | rfl | rfl | rfl <;> exact absurd h (by decide)

theorem bare_label (e : Expr) : Text.Bare e.label := by
  have hletter : ∀ v : Letter, Text.Bare v.symbol.toString := by rintro (_ | _) <;> decide
  have hop : ∀ op : Operator, Text.Bare op.symbol.toString := by rintro ⟨⟩ <;> decide
  have hname : ∀ f : Elementary, Text.Bare f.name := by rintro ⟨⟩ <;> decide
  cases e with
  | missing => exact (by decide : Text.Bare "(empty)")
  | number value => exact bare_plainText value
  | letter v => exact hletter v
  | binary op _ _ => exact hop op
  | signed sign _ => exact hop sign.operator
  | absolute _ => exact (by decide : Text.Bare "abs")
  | call f _ => exact hname f

theorem bare_of_mem_lowered {e : Expr} : ∀ row ∈ lowered e.item.rows, Text.Bare row.2 := by
  rw [lowered, List.forall_mem_map, rows_item, List.forall_mem_map]
  exact fun node _ => bare_label node.2

/-! ### The items determine the tree -/

theorem plainText_ne_empty (value : Float) : plainText value ≠ "(empty)" := by
  intro h
  have hparen : '(' ∈ (plainText value).toList := by
    rw [h]
    decide
  rcases mem_plainText hparen with h | h
  · cases h
  · exact absurd h (by decide)

theorem plainText_ne_symbol (value : Float) (v : Letter) :
    plainText value ≠ v.symbol.toString := by
  intro h
  have hsymbol : v.symbol ∈ (plainText value).toList := by
    rw [h]
    cases v <;> decide
  rcases mem_plainText hsymbol with h | h
  · cases v <;> cases h
  · cases v <;> exact absurd h (by decide)

theorem letter_ne_empty (v : Letter) : v.symbol.toString ≠ "(empty)" := by
  cases v <;> decide

theorem sign_ne_abs (sign : Sign) : sign.operator.symbol.toString ≠ "abs" := by
  cases sign <;> decide

theorem sign_ne_name (sign : Sign) (f : Elementary) :
    sign.operator.symbol.toString ≠ f.name := by
  cases sign <;> cases f <;> decide

theorem name_ne_abs (f : Elementary) : f.name ≠ "abs" := by
  cases f <;> decide

/-- Nodes of as many children are told apart by their labels. A sign and the operator of a sum are
not, but they have different numbers of children. -/
theorem eq_of_label_of_children {e e' : Expr} (hnan : ∀ value ∈ e.numbers, value.isNaN = false)
    (hnan' : ∀ value ∈ e'.numbers, value.isNaN = false) (hlabel : e.label = e'.label)
    (hchildren : e.children = e'.children) : e = e' := by
  cases e with
  | missing =>
    cases e' with
    | missing => rfl
    | number value' => exact absurd hlabel.symm (plainText_ne_empty value')
    | letter v' => exact absurd hlabel.symm (letter_ne_empty v')
    | _ => cases hchildren
  | number value =>
    cases e' with
    | missing => exact absurd hlabel (plainText_ne_empty value)
    | number value' =>
      rw [plainText_inj (hnan value List.mem_cons_self) (hnan' value' List.mem_cons_self) hlabel]
    | letter v' => exact absurd hlabel (plainText_ne_symbol value v')
    | _ => cases hchildren
  | letter v =>
    cases e' with
    | missing => exact absurd hlabel (letter_ne_empty v)
    | number value' => exact absurd hlabel.symm (plainText_ne_symbol value' v)
    | letter v' => rw [Letter.symbol_inj hlabel]
    | _ => cases hchildren
  | binary op left right =>
    cases e' with
    | binary op' left' right' =>
      cases hchildren
      rw [Operator.symbol_inj hlabel]
    | _ => cases hchildren
  | signed sign operand =>
    cases e' with
    | signed sign' operand' =>
      cases hchildren
      rw [Sign.operator_inj (Operator.symbol_inj hlabel)]
    | absolute operand' => exact absurd hlabel (sign_ne_abs sign)
    | call f' argument' => exact absurd hlabel (sign_ne_name sign f')
    | _ => cases hchildren
  | absolute operand =>
    cases e' with
    | signed sign' operand' => exact absurd hlabel.symm (sign_ne_abs sign')
    | absolute operand' =>
      cases hchildren
      rfl
    | call f' argument' => exact absurd hlabel.symm (name_ne_abs f')
    | _ => cases hchildren
  | call f argument =>
    cases e' with
    | signed sign' operand' => exact absurd hlabel.symm (sign_ne_name sign' f)
    | absolute operand' => exact absurd hlabel (name_ne_abs f)
    | call f' argument' =>
      cases hchildren
      rw [Elementary.name_inj hlabel]
    | _ => cases hchildren

theorem mem_numbers_of_mem_children {e child : Expr} {value : Float} (hchild : child ∈ e.children)
    (h : value ∈ child.numbers) : value ∈ e.numbers := by
  cases e with
  | missing | number | letter => cases hchild
  | binary op left right =>
    rcases List.mem_pair.mp hchild with rfl | rfl
    · exact List.mem_append_left _ h
    · exact List.mem_append_right _ h
  | signed sign operand | absolute operand | call f operand =>
    rw [List.mem_singleton.mp hchild] at h
    exact h

theorem eq_of_map_eq {α β : Type} {f : α → β} {as bs : List α} (h : as.map f = bs.map f)
    (hf : ∀ a ∈ as, ∀ b ∈ bs, f a = f b → a = b) : as = bs := by
  induction as generalizing bs with
  | nil => exact (List.map_eq_nil_iff.mp h.symm).symm
  | cons a as ih =>
    obtain ⟨b, bs, rfl, hb, hbs⟩ := List.map_eq_cons_iff.mp h.symm
    have hhead : a = b := hf a List.mem_cons_self b List.mem_cons_self hb.symm
    have htail : as = bs := ih hbs.symm fun a' ha' b' hb' =>
      hf a' (List.mem_cons_of_mem _ ha') b' (List.mem_cons_of_mem _ hb')
    rw [hhead, htail]

/-- The items of a tree belong to no other tree. -/
theorem eq_of_item_eq {e e' : Expr} (hnan : ∀ value ∈ e.numbers, value.isNaN = false)
    (hnan' : ∀ value ∈ e'.numbers, value.isNaN = false) (h : e.item = e'.item) : e = e' := by
  induction e using children_induction generalizing e' with
  | node e ih =>
    rw [item_eq, e'.item_eq] at h
    obtain ⟨hlabel, hbelow⟩ := Item.node.inj h
    have hchildren : e.children = e'.children := by
      apply eq_of_map_eq hbelow
      intro child hchild child' hchild'
      apply ih child hchild
      · exact fun value hvalue => hnan value (mem_numbers_of_mem_children hchild hvalue)
      · exact fun value hvalue => hnan' value (mem_numbers_of_mem_children hchild' hvalue)
    exact eq_of_label_of_children hnan hnan' hlabel hchildren

/-! ### The drawing -/

/-- The line shows the node: a cell for each level of its depth, and then its label. -/
def ShowsNode (node : Nat × Expr) (line : List Char) : Prop :=
  Text.Shows (node.1, node.2.label) line

theorem shows_rows_iff {e : Expr} {lines : List (List Char)} :
    List.Forall₂ Text.Shows (lowered e.item.rows) lines ↔
      List.Forall₂ ShowsNode (lowered e.preorder) lines := by
  rw [rows_item, lowered, lowered, List.map_map, List.forall₂_map_left_iff,
    List.forall₂_map_left_iff]
  rfl

section

variable {p : ItemPrinter} {view : p.Builder → OpenItem} (hp : p.Documented view)
include hp

/-- The drawing of a tree has the title and then the rows of its item, one level down. -/
theorem exists_outline?_eq (e : Expr) : ∃ text lines,
    e.outline? p = some text ∧
      text.toList.splitOn '\n' = "expression".toList :: lines ++ [[]] ∧
      List.Forall₂ Text.Shows (lowered e.item.rows) lines := by
  have hbuilt := view_built hp e
  have hrows : (Item.node "expression" [e.item]).rows =
      (0, "expression") :: lowered e.item.rows := by
    rw [Item.rows_node, List.flatMap_singleton]
  have hbare : ∀ row ∈ (0, "expression") :: lowered e.item.rows, Text.Bare row.2 :=
    List.forall_mem_cons.mpr ⟨by decide, bare_of_mem_lowered⟩
  obtain ⟨lines, hprint, hshows⟩ := hp.print _ (by rw [hbuilt])
    (by rw [hbuilt, hrows]; exact fun row hrow => (hbare row hrow).lineFeed_notMem)
  rw [hbuilt, hrows] at hshows
  have hsplit := Text.splitOn_ofLines (Text.lineFeed_notMem_of_shows hshows hbare)
  refine ⟨Text.ofLines lines, ?_⟩
  cases hshows with
  | cons htitle hbelow =>
    -- no cell stands before the title
    obtain ⟨before, hdepth, _, rfl⟩ := htitle
    obtain rfl := List.eq_nil_of_length_eq_zero hdepth
    exact ⟨_, by rw [outline?, hprint, Option.bind_some, Text.fromUTF8?_toUTF8], hsplit, hbelow⟩

theorem eq_of_outline?_eq {e e' : Expr} (hnan : ∀ value ∈ e.numbers, value.isNaN = false)
    (hnan' : ∀ value ∈ e'.numbers, value.isNaN = false) (h : e.outline? p = e'.outline? p) :
    e = e' := by
  obtain ⟨text, lines, htext, hsplit, hshows⟩ := exists_outline?_eq hp e
  obtain ⟨text', lines', htext', hsplit', hshows'⟩ := exists_outline?_eq hp e'
  obtain rfl : text = text' := by
    rw [← Option.some_inj, ← htext, h, htext']
  obtain rfl : lines = lines' :=
    (List.cons.inj (List.append_cancel_right (hsplit.symm.trans hsplit'))).2
  have hrows := Text.rows_unique hshows hshows' bare_of_mem_lowered bare_of_mem_lowered
  exact eq_of_item_eq hnan hnan' (Item.rows_injective (Text.lowered_injective hrows))

/-- A tree is drawn with a line for each node, parents first, and no other tree is drawn the
same. -/
theorem outline_faithful (e : Expr) :
    (∃ text lines, e.outline? p = some text ∧
      text.toList.splitOn '\n' = "expression".toList :: lines ++ [[]] ∧
      ("expression".toList :: lines).length = e.size + 1 ∧
      List.Forall₂ ShowsNode (lowered e.preorder) lines) ∧
    ∀ e' : Expr, (∀ value ∈ e.numbers, value.isNaN = false) →
      (∀ value ∈ e'.numbers, value.isNaN = false) →
      (e.outline? p = e'.outline? p ↔ e = e') := by
  constructor
  · obtain ⟨text, lines, htext, hsplit, hshows⟩ := exists_outline?_eq hp e
    have hnodes := shows_rows_iff.mp hshows
    refine ⟨text, lines, htext, hsplit, ?_, hnodes⟩
    rw [List.length_cons, ← hnodes.length_eq, lowered, List.length_map, length_preorder]
  · intro e' hnan hnan'
    exact ⟨eq_of_outline?_eq hp hnan hnan', fun h => by rw [h]⟩

end

/-- The labels of `-(x - 2)` and `-x - 2` are the same, and in the same order. -/
theorem outline_faithful_negated_difference :
    let negated := signed .minus (binary .subtract (letter .x) (number 2))
    let difference := binary .subtract (signed .minus (letter .x)) (number 2)
    ItemPrinter.boxes.Documented id ∧
      (∀ value ∈ negated.numbers, value.isNaN = false) ∧
      (∀ value ∈ difference.numbers, value.isNaN = false) ∧
      negated.outline = "expression\n└─ -\n   └─ -\n      ├─ x\n      └─ 2\n" ∧
      difference.outline = "expression\n└─ -\n   ├─ -\n   │  └─ x\n   └─ 2\n" ∧
      negated.outline? .boxes ≠ difference.outline? .boxes := by
  intro negated difference
  have hnumber : ∀ value ∈ [(2 : Float)], value.isNaN = false := by decide
  refine ⟨Text.boxes_documented, hnumber, hnumber, ?_, ?_, ?_⟩
  · decide +kernel
  · decide +kernel
  · exact ((outline_faithful Text.boxes_documented negated).2 difference hnumber hnumber).not.mpr
      nofun

end Expr
end Formula
