import Mathlib.Data.List.Forall2
import Formula.Text.Item

/-!
# What a drawing tells of the items

A printer is documented to draw one line an item, parents before children, with one cell before the
text for each level. The cells cannot be taken for the start of a text, so the lines tell how deep
every item is, and this tells which item is below which.
-/

set_option autoImplicit false

namespace Formula.Text

/-- Rows with their depths, one level further down. -/
def lowered {α : Type} (rows : List (Nat × α)) : List (Nat × α) :=
  rows.map fun (depth, a) => (depth + 1, a)

theorem lowered_injective {α : Type} : Function.Injective (lowered (α := α)) :=
  List.map_injective_iff.mpr fun _ _ => by simp [Prod.ext_iff]

namespace Item

theorem induction {motive : Item → Prop}
    (node : ∀ text children, (∀ child ∈ children, motive child) → motive (node text children)) :
    ∀ item, motive item
  | .node text children => node text children fun child _ => induction node child
  termination_by item => sizeOf item
  decreasing_by
    rename_i hchild
    have hlt := List.sizeOf_lt_of_mem hchild
    simp only [Item.node.sizeOf_spec]
    omega

mutual

/-- The texts of an item and of the items below it with their depths. Parents come before children,
and earlier children before later ones. -/
def rows : Item → List (Nat × String)
  | node text children => (0, text) :: rowsBelow children

/-- The rows of the children of an item. -/
def rowsBelow : List Item → List (Nat × String)
  | [] => []
  | child :: rest => lowered child.rows ++ rowsBelow rest

end

theorem rowsBelow_eq (children : List Item) :
    rowsBelow children = lowered (children.flatMap rows) := by
  induction children with
  | nil => rfl
  | cons child children ih => rw [rowsBelow, ih, List.flatMap_cons, lowered, lowered, lowered,
      List.map_append]

theorem rows_node (text : String) (children : List Item) :
    (node text children).rows = (0, text) :: lowered (children.flatMap rows) := by
  rw [rows, rowsBelow_eq]

end Item

/-! ### The rows determine the items -/

/-- What stands before the first element that passes the test is the same in equal lists. -/
theorem append_inj_of_head? {α : Type} {test : α → Bool} {rest rest' next next' : List α}
    (hrest : ∀ a ∈ rest, test a = false) (hrest' : ∀ a ∈ rest', test a = false)
    (hnext : ∀ a ∈ next.head?, test a = true) (hnext' : ∀ a ∈ next'.head?, test a = true)
    (h : rest ++ next = rest' ++ next') : rest = rest' ∧ next = next' := by
  have hspan {rest next : List α} (hrest : ∀ a ∈ rest, test a = false)
      (hnext : ∀ a ∈ next.head?, test a = true) : (rest ++ next).takeWhile (!test ·) = rest := by
    rw [List.takeWhile_append_of_pos (by simpa using hrest)]
    cases next with
    | nil => simp
    | cons a next => simp [hnext a rfl]
  have heq : rest = rest' := by
    rw [← hspan hrest hnext, h, hspan hrest' hnext']
  rw [heq] at h
  exact ⟨heq, List.append_cancel_left h⟩

namespace Item

/-- Whether a row is the one of an outermost item. -/
def isOutermost (row : Nat × String) : Bool :=
  row.1 = 0

theorem isOutermost_of_mem_lowered {rows : List (Nat × String)} {row : Nat × String}
    (h : row ∈ lowered rows) : isOutermost row = false := by
  obtain ⟨row, _, rfl⟩ := List.mem_map.mp h
  rfl

theorem isOutermost_of_mem_head? (children : List Item) :
    ∀ row ∈ (children.flatMap rows).head?, isOutermost row = true := by
  cases children with
  | nil => simp
  | cons child children =>
    obtain ⟨text, below⟩ := child
    rw [List.flatMap_cons, rows_node]
    rintro row ⟨⟩
    rfl

/-- The next item begins where a row is outermost again. -/
theorem rows_inj_of_append {child child' : Item} {children children' : List Item}
    (h : child.rows ++ children.flatMap rows = child'.rows ++ children'.flatMap rows) :
    child.rows = child'.rows ∧ children.flatMap rows = children'.flatMap rows := by
  obtain ⟨text, below⟩ := child
  obtain ⟨text', below'⟩ := child'
  rw [rows_node, rows_node, List.cons_append, List.cons_append] at h
  obtain ⟨htext, hrest⟩ := List.cons.inj h
  obtain ⟨hbelow, hnext⟩ := append_inj_of_head?
    (fun _ => isOutermost_of_mem_lowered) (fun _ => isOutermost_of_mem_lowered)
    (isOutermost_of_mem_head? children) (isOutermost_of_mem_head? children') hrest
  rw [rows_node, rows_node, htext, hbelow]
  exact ⟨rfl, hnext⟩

theorem rows_ne_nil (item : Item) : item.rows ≠ [] := by
  obtain ⟨text, children⟩ := item
  exact List.cons_ne_nil _ _

theorem eq_of_flatMap_rows_eq {children children' : List Item}
    (ih : ∀ child ∈ children, ∀ ⦃other : Item⦄, child.rows = other.rows → child = other)
    (h : children.flatMap rows = children'.flatMap rows) : children = children' := by
  induction children generalizing children' with
  | nil =>
    cases children' with
    | nil => rfl
    | cons child' children' => exact absurd h.symm (by simp [rows_ne_nil])
  | cons child children ihchildren =>
    cases children' with
    | nil => exact absurd h (by simp [rows_ne_nil])
    | cons child' children' =>
      obtain ⟨hchild, hmore⟩ := List.forall_mem_cons.mp ih
      obtain ⟨hfirst, hrest⟩ := rows_inj_of_append h
      rw [hchild hfirst, ihchildren hmore hrest]

/-- The items are found again from their depths. -/
theorem rows_injective : Function.Injective rows := by
  intro item
  induction item using induction with
  | node text children ih =>
    rintro ⟨text', children'⟩ h
    rw [rows_node, rows_node] at h
    obtain ⟨htext, hbelow⟩ := List.cons.inj h
    obtain rfl : text = text' := congrArg Prod.snd htext
    rw [eq_of_flatMap_rows_eq ih (lowered_injective hbelow)]

end Item

/-! ### The lines determine the rows -/

/-- The cells that a line may have before its text. -/
def cells : List (List Char) :=
  [['├', '─', ' '], ['└', '─', ' '], ['│', ' ', ' '], [' ', ' ', ' ']]

/-- The line shows the row: a cell for each level of its depth, and then its text. -/
def Shows (row : Nat × String) (line : List Char) : Prop :=
  ∃ before : List (List Char), before.length = row.1 ∧ (∀ cell ∈ before, cell ∈ cells) ∧
    line = before.flatten ++ row.2.toList

/-- The text can be told from the cells before it, and it is no longer than a line. -/
def Bare (text : String) : Prop :=
  ∀ c ∈ text.toList, c ∉ ['├', '└', '│', ' ', '\n']

instance (text : String) : Decidable (Bare text) :=
  decidable_of_iff (text.toList.all fun c => ['├', '└', '│', ' ', '\n'].all (c ≠ ·))
    (by simp [Bare])

theorem Bare.lineFeed_notMem {text : String} (h : Bare text) : '\n' ∉ text.toList :=
  fun hmem => h _ hmem (by simp)

theorem length_of_mem_cells {cell : List Char} (h : cell ∈ cells) : cell.length = 3 := by
  have hall : ∀ cell ∈ cells, cell.length = 3 := by decide
  exact hall cell h

theorem head?_of_mem_cells {cell : List Char} (h : cell ∈ cells) :
    ∃ first ∈ ['├', '└', '│', ' '], ∃ rest, cell = first :: rest := by
  simp only [cells, List.mem_cons, List.not_mem_nil, or_false] at h
  rcases h with rfl | rfl | rfl | rfl <;> exact ⟨_, by simp, _, rfl⟩

/-- Where a text begins, no cell does. -/
theorem Bare.ne_cell_append {text : String} (h : Bare text) {cell rest : List Char}
    (hcell : cell ∈ cells) : text.toList ≠ cell ++ rest := by
  obtain ⟨first, hfirst, tail, rfl⟩ := head?_of_mem_cells hcell
  intro heq
  have hmem : first ∈ text.toList := by simp [heq]
  apply h first hmem
  simp only [List.mem_cons, List.not_mem_nil, or_false] at hfirst ⊢
  tauto

/-- The cells end where the text begins. -/
theorem eq_of_cells_append_eq {before before' : List (List Char)} {text text' : String}
    (hbefore : ∀ cell ∈ before, cell ∈ cells) (hbefore' : ∀ cell ∈ before', cell ∈ cells)
    (hbare : Bare text) (hbare' : Bare text')
    (h : before.flatten ++ text.toList = before'.flatten ++ text'.toList) :
    before = before' ∧ text = text' := by
  induction before generalizing before' with
  | nil =>
    cases before' with
    | nil => exact ⟨rfl, String.toList_inj.mp (by simpa using h)⟩
    | cons cell' before' =>
      exact absurd (by simpa using h) (hbare.ne_cell_append (hbefore' cell' List.mem_cons_self))
  | cons cell before ih =>
    cases before' with
    | nil =>
      exact absurd (by simpa using h.symm)
        (hbare'.ne_cell_append (hbefore cell List.mem_cons_self))
    | cons cell' before' =>
      obtain ⟨hcell, hmore⟩ := List.forall_mem_cons.mp hbefore
      obtain ⟨hcell', hmore'⟩ := List.forall_mem_cons.mp hbefore'
      have hlength := (length_of_mem_cells hcell).trans (length_of_mem_cells hcell').symm
      rw [List.flatten_cons, List.flatten_cons, List.append_assoc, List.append_assoc] at h
      obtain ⟨rfl, hrest⟩ := List.append_inj h hlength
      obtain ⟨rfl, htext⟩ := ih hmore hmore' hrest
      exact ⟨rfl, htext⟩

/-- A line shows only one row with a text that is no cell. -/
theorem Shows.unique {row row' : Nat × String} {line : List Char} (h : Shows row line)
    (h' : Shows row' line) (hbare : Bare row.2) (hbare' : Bare row'.2) : row = row' := by
  obtain ⟨before, hdepth, hbefore, rfl⟩ := h
  obtain ⟨before', hdepth', hbefore', hline⟩ := h'
  obtain ⟨rfl, htext⟩ := eq_of_cells_append_eq hbefore hbefore' hbare hbare' hline
  exact Prod.ext (hdepth.symm.trans hdepth') htext

theorem rows_unique {rows rows' : List (Nat × String)} {lines : List (List Char)}
    (h : List.Forall₂ Shows rows lines) (h' : List.Forall₂ Shows rows' lines)
    (hbare : ∀ row ∈ rows, Bare row.2) (hbare' : ∀ row ∈ rows', Bare row.2) : rows = rows' := by
  induction h generalizing rows' with
  | nil =>
    cases h'
    rfl
  | cons hfirst _ ih =>
    cases h' with
    | cons hfirst' hrest' =>
      obtain ⟨hrow, hmore⟩ := List.forall_mem_cons.mp hbare
      obtain ⟨hrow', hmore'⟩ := List.forall_mem_cons.mp hbare'
      rw [hfirst.unique hfirst' hrow hrow', ih hrest' hmore hmore']

theorem Shows.lineFeed_notMem {row : Nat × String} {line : List Char} (h : Shows row line)
    (hbare : Bare row.2) : '\n' ∉ line := by
  obtain ⟨before, _, hbefore, rfl⟩ := h
  have hcells : ∀ cell ∈ cells, '\n' ∉ cell := by decide
  intro hmem
  rcases List.mem_append.mp hmem with hmem | hmem
  · obtain ⟨cell, hcell, hmem⟩ := List.mem_flatten.mp hmem
    exact hcells cell (hbefore cell hcell) hmem
  · exact hbare.lineFeed_notMem hmem

theorem lineFeed_notMem_of_shows {rows : List (Nat × String)} {lines : List (List Char)}
    (h : List.Forall₂ Shows rows lines) (hbare : ∀ row ∈ rows, Bare row.2) :
    ∀ line ∈ lines, '\n' ∉ line := by
  induction h with
  | nil => exact fun line hline => absurd hline List.not_mem_nil
  | cons hfirst _ ih =>
    obtain ⟨hrow, hmore⟩ := List.forall_mem_cons.mp hbare
    exact List.forall_mem_cons.mpr ⟨hfirst.lineFeed_notMem hrow, ih hmore⟩

/-- A text whose lines all end with the separator is divided into them, with nothing after the
last one. -/
theorem splitOn_flatMap {α : Type} [BEq α] [LawfulBEq α] {separator : α} {lines : List (List α)}
    (h : ∀ line ∈ lines, separator ∉ line) :
    (lines.flatMap fun line => line ++ [separator]).splitOn separator = lines ++ [[]] := by
  have hjoined : (lines.flatMap fun line => line ++ [separator]) =
      [separator].intercalate (lines ++ [[]]) := by
    induction lines with
    | nil => rfl
    | cons line lines ih =>
      have hne : lines ++ [[]] ≠ [] := by simp
      rw [List.flatMap_cons, ih (List.forall_mem_cons.mp h).2, List.cons_append,
        List.intercalate_cons_of_ne_nil hne]
  rw [hjoined, List.splitOn_intercalate separator _ (by simp)]
  intro line hline
  rcases List.mem_append.mp hline with hline | hline
  · exact h line hline
  · simp [List.mem_singleton.mp hline]

theorem splitOn_ofLines {lines : List (List Char)} (h : ∀ line ∈ lines, '\n' ∉ line) :
    (ofLines lines).toList.splitOn '\n' = lines ++ [[]] := by
  rw [ofLines, String.toList_ofList]
  exact splitOn_flatMap h

/-! ### Printers -/

/-- What is documented of a printer, for a view of its builders as open items. A child goes to the
item that is open, after the other children. When all items but the outermost one are closed, it is
drawn, one line an item, if no text has a line feed. -/
structure ItemPrinter.Documented (p : ItemPrinter) (view : p.Builder → OpenItem) : Prop where
  start : ∀ title, view (p.start title) = .start title
  beginChild : ∀ b text, view (p.beginChild b text) = (view b).beginChild text
  endChild : ∀ b, (view b).parents ≠ [] → view (p.endChild b) = (view b).endChild
  addLeaf : ∀ b text, view (p.addLeaf b text) = (view b).addChildren [.node text []]
  print : ∀ b, (view b).parents = [] → (∀ row ∈ (view b).item.rows, '\n' ∉ row.2.toList) →
    ∃ lines, p.print b = some (ofLines lines).toUTF8 ∧
      List.Forall₂ Shows (view b).item.rows lines

/-- A cell before a line takes the row of the line one level down. -/
theorem Shows.lower {row : Nat × String} {line cell : List Char} (h : Shows row line)
    (hcell : cell ∈ cells) : Shows (row.1 + 1, row.2) (cell ++ line) := by
  obtain ⟨before, hlength, hbefore, rfl⟩ := h
  exact ⟨cell :: before, congrArg (· + 1) hlength, List.forall_mem_cons.mpr ⟨hcell, hbefore⟩,
    by simp⟩

theorem shows_map_append {rows : List (Nat × String)} {lines : List (List Char)}
    (h : List.Forall₂ Shows rows lines) {cell : List Char} (hcell : cell ∈ cells) :
    List.Forall₂ Shows (lowered rows) (lines.map (cell ++ ·)) := by
  rw [lowered, List.forall₂_map_left_iff, List.forall₂_map_right_iff]
  exact h.imp fun _ _ h => h.lower hcell

theorem shows_branch (last : Bool) {rows : List (Nat × String)} {lines : List (List Char)}
    (h : List.Forall₂ Shows rows lines) :
    List.Forall₂ Shows (lowered rows) (branch last lines) := by
  cases h with
  | nil => exact .nil
  | cons hfirst hrest =>
    cases last with
    | false => exact .cons (hfirst.lower (by simp [cells])) (shows_map_append hrest (by simp [cells]))
    | true => exact .cons (hfirst.lower (by simp [cells])) (shows_map_append hrest (by simp [cells]))

theorem shows_branches {children : List Item}
    (h : ∀ child ∈ children, List.Forall₂ Shows child.rows child.lines) :
    List.Forall₂ Shows (Item.rowsBelow children) (Item.branches children) := by
  induction children with
  | nil => exact .nil
  | cons child children ih =>
    obtain ⟨hchild, hchildren⟩ := List.forall_mem_cons.mp h
    rw [Item.rowsBelow, Item.branches]
    exact List.rel_append (shows_branch _ hchild) (ih hchildren)

/-- The lines of an item are its rows, in order. -/
theorem shows_lines (item : Item) : List.Forall₂ Shows item.rows item.lines := by
  induction item using Item.induction with
  | node text children ih =>
    rw [Item.rows, Item.lines]
    exact .cons ⟨[], rfl, by simp, rfl⟩ (shows_branches ih)

/-- Boxes are drawn as documented. -/
theorem boxes_documented : ItemPrinter.boxes.Documented id where
  start _ := rfl
  beginChild _ _ := rfl
  endChild _ _ := rfl
  addLeaf _ _ := rfl
  print := by
    intro (b : OpenItem) hclosed _
    have hwhole : b.whole = b.item := OpenItem.whole_of_closed hclosed
    exact ⟨b.item.lines, congrArg (fun item : Item => some (ofLines item.lines).toUTF8) hwhole,
      shows_lines b.item⟩

end Formula.Text
