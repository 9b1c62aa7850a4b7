import PointTiles.Coordinate
import PointTiles.Fault

/-! # Axis-aligned boxes

* `Span`: what a box is on one axis, from `lo` to `hi`, both ends included.
* `Box`: a span on each axis. A box need not be ordered; `Box.ofCorners?` makes ordered ones only.
* `Box.octant`: the half of a box on each axis. Every face a cell shares with its parent is copied,
  and every inner face is the parent's middle.
* `overlaps`, `contains`, `volume`, `sharedVolume`: geometry, touching counted as overlap.
-/

namespace PointTiles
set_option autoImplicit false

variable {α : Type} [Coordinate α]

/-! ## Spans -/

structure Span (α : Type) where
  lo : α
  hi : α
  deriving DecidableEq, Repr

namespace Span

def middle (s : Span α) : α := Coordinate.add s.lo (Coordinate.half (Coordinate.sub s.hi s.lo))

def halve (upper : Bool) (s : Span α) : Span α :=
  if upper then ⟨s.middle, s.hi⟩ else ⟨s.lo, s.middle⟩

def ordered (s : Span α) : Bool := Coordinate.le s.lo s.hi

/-- Whether two ordered spans have a coordinate in common. -/
def overlaps (s t : Span α) : Bool := Coordinate.le s.lo t.hi && Coordinate.le t.lo s.hi

def contains (s : Span α) (a : α) : Bool := Coordinate.le s.lo a && Coordinate.le a s.hi

def size (s : Span α) : α := Coordinate.sub s.hi s.lo

def center (s : Span α) : α := Coordinate.half (Coordinate.add s.lo s.hi)

/-- The length two spans have in common, zero where they have none. -/
def sharedSize (s t : Span α) : α :=
  Coordinate.greatest
    (Coordinate.sub (Coordinate.least s.hi t.hi) (Coordinate.greatest s.lo t.lo))
    Coordinate.zero

/-- Whether the ends are the same numbers. -/
def same (s t : Span α) : Bool := Coordinate.same s.lo t.lo && Coordinate.same s.hi t.hi

end Span

/-! ## Boxes -/

abbrev Box (α : Type) := Vec (Span α)

/-- The product of the three components, `x` and `y` first. -/
def Vec.product (v : Vec α) : α := Coordinate.mul (Coordinate.mul v.x v.y) v.z

namespace Box

/-- The box with the given corners, ordered or not. -/
def ofCorners (lo hi : Vec α) : Box α := Vec.zipWith Span.mk lo hi

def lower (b : Box α) : Vec α := b.map Span.lo

def upper (b : Box α) : Vec α := b.map Span.hi

def ordered (b : Box α) : Bool := b.all Span.ordered

/-- The box with the given corners, which have to be in order. -/
def ofCorners? (lo hi : Vec α) : Except Fault (Box α) :=
  if (ofCorners lo hi).ordered then .ok (ofCorners lo hi) else .error .invertedBox

/-- The box with both corners at the origin. -/
def zero : Box α := Vec.replicate ⟨Coordinate.zero, Coordinate.zero⟩

def octant (o : Octant) (b : Box α) : Box α := Vec.zipWith Span.halve o b

/-- Whether two ordered boxes have a point in common. -/
def overlaps (a b : Box α) : Bool := (Vec.zipWith Span.overlaps a b).all id

def contains (b : Box α) (p : Vec α) : Bool := (Vec.zipWith Span.contains b p).all id

def size (b : Box α) : Vec α := b.map Span.size

def center (b : Box α) : Vec α := b.map Span.center

def volume (b : Box α) : α := b.size.product

/-- The volume two boxes have in common, zero where they only touch or do not meet. -/
def sharedVolume (a b : Box α) : α := (Vec.zipWith Span.sharedSize a b).product

/-- Whether the corners are the same numbers. -/
def same (a b : Box α) : Bool := (Vec.zipWith Span.same a b).all id

/-! ## Components by number

A dataset lists the six components of a box as the lower corner and then the upper one. -/

/-- The six components in order. -/
def toList (b : Box α) : List α := [b.x.lo, b.y.lo, b.z.lo, b.x.hi, b.y.hi, b.z.hi]

def ofList? : List α → Option (Box α)
  | [x, y, z, x', y', z'] => some ⟨⟨x, x'⟩, ⟨y, y'⟩, ⟨z, z'⟩⟩
  | _ => none

def component (b : Box α) (index : Nat) : Except Fault α :=
  match b.toList[index]? with
  | some a => .ok a
  | none => .error (.noBoxComponent index)

def setComponent (b : Box α) (index : Nat) (a : α) : Except Fault (Box α) :=
  match index with
  | 0 => .ok { b with x.lo := a }
  | 1 => .ok { b with y.lo := a }
  | 2 => .ok { b with z.lo := a }
  | 3 => .ok { b with x.hi := a }
  | 4 => .ok { b with y.hi := a }
  | 5 => .ok { b with z.hi := a }
  | index => .error (.noBoxComponent index)

end Box

end PointTiles
