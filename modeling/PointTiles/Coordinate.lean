/-! # Coordinates

Boxes and octree cells are measured in a coordinate type that offers the few operations of
`Coordinate`. Nothing in the library assumes a law of these operations, so every statement about
addresses and cell faces holds for rounded and for exact arithmetic alike.

* `Float`: the coordinates a dataset is stored in.
* `Rat`: exact coordinates, in which cells tile their parent and volumes add up.
-/

namespace PointTiles
set_option autoImplicit false

/-- The operations a box needs of its coordinates. Comparisons answer a `Bool`: a coordinate that
is not a number compares false with everything, itself included. -/
class Coordinate (α : Type) where
  zero : α
  add : α → α → α
  sub : α → α → α
  mul : α → α → α
  half : α → α
  le : α → α → Bool
  lt : α → α → Bool
  same : α → α → Bool

namespace Coordinate

variable {α : Type} [Coordinate α]

/-- The smaller of two coordinates; the second where they do not compare. -/
def least (a b : α) : α := if lt a b then a else b

/-- The larger of two coordinates; the second where they do not compare. -/
def greatest (a b : α) : α := if lt b a then a else b

end Coordinate

instance : Coordinate Float where
  zero := 0
  add := (· + ·)
  sub := (· - ·)
  mul := (· * ·)
  half a := a / 2
  le a b := a ≤ b
  lt a b := a < b
  same a b := a == b

instance : Coordinate Rat where
  zero := 0
  add := (· + ·)
  sub := (· - ·)
  mul := (· * ·)
  half a := a / 2
  le a b := a ≤ b
  lt a b := a < b
  same a b := a == b

end PointTiles
