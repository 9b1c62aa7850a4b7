import PointTiles.Hierarchy
import PointTiles.Layout

/-! # Addons

An addon is one more dimension, stored apart from the dataset with a hierarchy of its own. It takes
its type, size and name from a layout.
-/

namespace PointTiles
set_option autoImplicit false

/-- A dimension stored apart. -/
structure Addon (α : Type) where
  endpoint : String
  id : Nat
  type : StorageType
  size : Nat
  name : String
  hierarchy : Hierarchy α

namespace Addon

variable {α : Type} [Coordinate α]

/-- The addon for a dimension of a layout, with no points yet. -/
def create (layout : Layout) (endpoint : String) (id : Nat) : Except Fault (Addon α) :=
  match layout.dimension? id with
  | some d => .ok ⟨endpoint, id, d.type, d.size, d.name, .empty⟩
  | none => .error (.unknownDimension id)

def points (addon : Addon α) (key : Key α) : UInt64 := addon.hierarchy.count key

end Addon

end PointTiles
