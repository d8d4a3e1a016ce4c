import Formula.Decimal.Text
import Formula.Expr.Visitor
import Formula.Text.Item

/-!
# Expressions drawn as trees

A node is drawn as an item below the item of its parent. A visitor hands the nodes to the builder
of a printer.
-/

set_option autoImplicit false

namespace Formula.Expr

open Text (ItemPrinter)

/-- Hands over an item that is open for the walk, so that what comes on the walk is below it. -/
def enclosed (p : ItemPrinter) (text : String) (walk : p.Builder → p.Builder) (b : p.Builder) :
    p.Builder :=
  p.endChild (walk (p.beginChild b text))

/-- Hands every node over, with its operands below it. -/
def outliner (p : ItemPrinter) : Visitor p.Builder where
  missing b := p.addLeaf b "(empty)"
  number value b := p.addLeaf b (plainText value)
  letter v b := p.addLeaf b v.symbol.toString
  binary op left right := enclosed p op.symbol.toString (walkBinary left right)
  signed sign operand := enclosed p sign.operator.symbol.toString operand
  absolute operand := enclosed p "abs" operand
  call f argument := enclosed p f.name argument

/-- The drawing of a tree below the title `expression`, if the printer writes one. -/
def outline? (p : ItemPrinter) (e : Expr) : Option String :=
  (p.print (e.accept (outliner p) (p.start "expression"))).bind String.fromUTF8?

def outline (e : Expr) : String :=
  (e.outline? .boxes).getD ""

end Formula.Expr
