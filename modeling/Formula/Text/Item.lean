/-!
# Trees of texts

An item is a text with items below it. A printer draws a tree of items. It is handed the items one
after the other: each is a child of the item that is open when it comes, and it may be open itself
for a while.
-/

set_option autoImplicit false

namespace Formula.Text

theorem fromUTF8?_toUTF8 (text : String) : String.fromUTF8? text.toUTF8 = some text := by
  rw [String.fromUTF8?, String.toUTF8_eq_toByteArray, dif_pos text.isValidUTF8]
  rfl

inductive Item where
  | node (text : String) (children : List Item)

/-- The item with more children, after those that it has. -/
def Item.append : Item → List Item → Item
  | node text children, more => node text (children ++ more)

/-- An item that is open, and the open items around it, the innermost first. -/
structure OpenItem where
  item : Item
  parents : List Item

namespace OpenItem

def start (title : String) : OpenItem :=
  ⟨.node title [], []⟩

def addChildren (o : OpenItem) (children : List Item) : OpenItem :=
  { o with item := o.item.append children }

/-- Opens a new child of the item. -/
def beginChild (o : OpenItem) (text : String) : OpenItem :=
  ⟨.node text [], o.item :: o.parents⟩

@[simp]
theorem addChildren_addChildren (o : OpenItem) (children more : List Item) :
    (o.addChildren children).addChildren more = o.addChildren (children ++ more) := by
  obtain ⟨⟨text, below⟩, parents⟩ := o
  simp [addChildren, Item.append]

/-- Closes the item, and goes on with the one around it, if there is one. -/
def endChild (o : OpenItem) : OpenItem :=
  match o.parents with
  | [] => o
  | parent :: parents => ⟨parent.append [o.item], parents⟩

/-- The outermost item, when every item is closed. -/
def whole (o : OpenItem) : Item :=
  o.parents.foldl (fun item parent => parent.append [item]) o.item

theorem whole_of_closed {o : OpenItem} (h : o.parents = []) : o.whole = o.item := by
  rw [whole, h, List.foldl_nil]

end OpenItem

/-- What draws trees of items, from a builder to which the items have been handed. -/
structure ItemPrinter where
  Builder : Type
  /-- A builder with nothing below the title. -/
  start : String → Builder
  beginChild : Builder → String → Builder
  endChild : Builder → Builder
  /-- Hands over a child without children of its own. -/
  addLeaf : Builder → String → Builder
  /-- The drawing in UTF-8, unless it cannot be written. -/
  print : Builder → Option ByteArray

/-- The text with these lines, every one ended by a line feed. -/
def ofLines (lines : List (List Char)) : String :=
  String.ofList (lines.flatMap fun line => line ++ ['\n'])

/-- The lines of a child, moved right by a cell. The last child ends its parent's branch. -/
def branch (last : Bool) : List (List Char) → List (List Char)
  | [] => []
  | first :: rest =>
    if last then (['└', '─', ' '] ++ first) :: rest.map ([' ', ' ', ' '] ++ ·)
    else (['├', '─', ' '] ++ first) :: rest.map (['│', ' ', ' '] ++ ·)

mutual

/-- The lines of an item, its own text first. -/
def Item.lines : Item → List (List Char)
  | node text children => text.toList :: Item.branches children

/-- The lines of the children of an item. -/
def Item.branches : List Item → List (List Char)
  | [] => []
  | child :: rest => branch rest.isEmpty child.lines ++ Item.branches rest

end

/-- Draws one line an item, parents before children. Every line below an item is moved right by a
cell of three characters, which shows the branch that the line starts or goes past. -/
def ItemPrinter.boxes : ItemPrinter where
  Builder := OpenItem
  start := OpenItem.start
  beginChild := OpenItem.beginChild
  endChild := OpenItem.endChild
  addLeaf o text := o.addChildren [.node text []]
  print o := some (ofLines o.whole.lines).toUTF8

end Formula.Text
