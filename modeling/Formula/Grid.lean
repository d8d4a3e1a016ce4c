/-!
# Sample grids

Evenly spaced values, centred on zero, at which the graph of a function is sampled.
-/

set_option autoImplicit false

namespace Formula

structure Grid where
  /-- The number of values, below `2 ^ 64`. -/
  points : Nat := 9000
  interval : Float := 0.1

namespace Grid

def start (g : Grid) : Float :=
  -(g.points.toUInt64.toFloat * g.interval) / 2.0

def value (g : Grid) (index : Nat) : Float :=
  g.start + index.toUInt64.toFloat * g.interval

def values (g : Grid) : List Float :=
  (List.range g.points).map g.value

def sample (g : Grid) (f : Float → Float) : List (Float × Float) :=
  g.values.map fun x => (x, f x)

theorem length_sample (g : Grid) (f : Float → Float) : (g.sample f).length = g.points := by
  simp [sample, values]

end Grid
end Formula
