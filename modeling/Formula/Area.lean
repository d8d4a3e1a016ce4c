/-!
# The area under a function

The area is approximated by rectangles of equal width, each as tall as the function at its
right edge. The sum is stated for any arithmetic, so that it can be computed in binary64
and reasoned about in exact numbers.
-/

set_option autoImplicit false

namespace Formula

class Arithmetic (α : Type) extends Add α, Sub α, Mul α, Div α where
  ofCount : Nat → α
  /-- The sum of no terms, which leaves every term that is added to it unchanged. -/
  emptySum : α
  less : α → α → Bool

/-- Negative zero is neutral for addition, zero is not: it would turn negative zero into
itself. Counts are below `2 ^ 64`. -/
instance : Arithmetic Float where
  ofCount n := n.toUInt64.toFloat
  emptySum := -0.0
  less a b := a < b

/-- An interval cut into divisions of equal width. -/
structure Partition (α : Type) where
  lower : α
  upper : α
  divisions : Nat

namespace Partition

variable {α : Type} [Arithmetic α]

/-- The partition between two limits, which may be given in either order. -/
def between (a b : α) (divisions : Nat) : Partition α :=
  if Arithmetic.less b a then ⟨b, a, divisions⟩ else ⟨a, b, divisions⟩

def width (p : Partition α) : α :=
  (p.upper - p.lower) / Arithmetic.ofCount p.divisions

/-- The right edge of a division. The first division has index zero. -/
def rightEdge (p : Partition α) (index : Nat) : α :=
  p.lower + Arithmetic.ofCount (index + 1) * p.width

/-- The sum of the heights of all rectangles, from left to right. -/
def heights (p : Partition α) (f : α → α) : α :=
  p.divisions.fold (fun index _ sum => sum + f (p.rightEdge index)) Arithmetic.emptySum

def area (p : Partition α) (f : α → α) : α :=
  p.heights f * p.width

end Partition

inductive AreaError where
  | noDivisions
  deriving DecidableEq

def AreaError.message : AreaError → String
  | noDivisions => "The number of divisions must be at least 1"

def area {α : Type} [Arithmetic α] (divisions : Nat) (a b : α) (f : α → α) :
    Except AreaError α :=
  if divisions = 0 then .error .noDivisions else .ok ((Partition.between a b divisions).area f)

end Formula
