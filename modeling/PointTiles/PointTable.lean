import PointTiles.Layout

/-! # Point tables

A table views a buffer as points packed one behind the other in a layout. Bytes behind the last
whole point belong to no point.

* `PointTable.size`: how many points there are.
* `point`, `field`: the bytes of a point, and of one of its values.
* `setField`: the table with one value replaced by one of the same size.
-/

namespace PointTiles
set_option autoImplicit false

structure PointTable where
  layout : Layout
  data : List UInt8

namespace PointTable

/-- The number of points; none where a point has no bytes. -/
def size (t : PointTable) : Nat :=
  if t.layout.pointSize = 0 then 0 else t.data.length / t.layout.pointSize

def pointStart (t : PointTable) (index : Nat) : Except Fault Nat :=
  if index < t.size then .ok (index * t.layout.pointSize)
  else .error (.pointOutOfRange index t.size)

def slice (t : PointTable) (start length : Nat) : List UInt8 := (t.data.drop start).take length

def point (t : PointTable) (index : Nat) : Except Fault (List UInt8) := do
  let start ← t.pointStart index
  .ok (t.slice start t.layout.pointSize)

/-- Where a value starts, and its size. -/
def fieldRange (t : PointTable) (id index : Nat) : Except Fault (Nat × Nat) :=
  match t.layout.dimension? id with
  | none => .error (.unknownDimension id)
  | some d => do
    let start ← t.pointStart index
    .ok (start + d.offset, d.size)

def field (t : PointTable) (id index : Nat) : Except Fault (List UInt8) := do
  let (start, size) ← t.fieldRange id index
  .ok (t.slice start size)

/-- The bytes with some of them replaced. -/
def overwrite (data : List UInt8) (start : Nat) (value : List UInt8) : List UInt8 :=
  data.take start ++ value ++ data.drop (start + value.length)

def setField (t : PointTable) (id index : Nat) (value : List UInt8) : Except Fault PointTable := do
  let (start, size) ← t.fieldRange id index
  if value.length = size then .ok { t with data := overwrite t.data start value }
  else .error (.fieldSize size value.length)

def addPoint (_ : PointTable) : Except Fault Nat := .error .appendUnsupported

end PointTable

end PointTiles
