import PointTiles.Schema

/-! # Point layouts

A layout says where the values of a point lie in its bytes. Dimensions are packed in the order in
which their names were first registered.

* `Dimension`: a registered dimension with its number and the offset of its value.
* `Layout.register`: a known name keeps its number; a new one is placed behind the others, unless
  the layout is finalized.
-/

namespace PointTiles
set_option autoImplicit false

structure Dimension where
  id : Nat
  name : String
  type : StorageType
  offset : Nat
  deriving DecidableEq, Repr

def Dimension.size (d : Dimension) : Nat := d.type.size

structure Layout where
  dimensions : List Dimension
  pointSize : Nat
  finalized : Bool
  deriving DecidableEq, Repr

namespace Layout

def empty : Layout := ⟨[], 0, false⟩

def find? (l : Layout) (name : String) : Option Nat :=
  (l.dimensions.find? (fun d => d.name = name)).map Dimension.id

def dimension? (l : Layout) (id : Nat) : Option Dimension := l.dimensions[id]?

/-- Places a dimension behind the others. -/
def append (l : Layout) (name : String) (type : StorageType) : Layout :=
  { l with
    dimensions := l.dimensions ++ [⟨l.dimensions.length, name, type, l.pointSize⟩]
    pointSize := l.pointSize + type.size }

/-- Registers a dimension, and answers its number. -/
def register (l : Layout) (name : String) (type : StorageType) : Except Fault (Nat × Layout) :=
  match l.find? name with
  | some id => .ok (id, l)
  | none =>
    if l.finalized then .error (.layoutFinalized name)
    else .ok (l.dimensions.length, l.append name type)

def finalize (l : Layout) : Layout := { l with finalized := true }

end Layout

end PointTiles
