import PointTiles.Hierarchy

/-! # Selecting nodes

A selection is the part of an octree that is worth fetching: the nodes with points, in touch with a
query box, and not too deep. It is found from a start key downwards; a node that does not qualify
hides everything below it.

* `Query`: the optional box and the optional depth limit.
* `Query.admits`: whether a node qualifies.
* `visit`: the qualifying nodes from a key down, a node before its octants.
* `select`: those nodes in key order.
-/

namespace PointTiles
set_option autoImplicit false

structure Query (α : Type) where
  region : Option (Box α)
  depthLimit : Option UInt64

namespace Hierarchy

variable {α : Type} [Coordinate α]

/-- Whether a node has points and is in touch with the region asked for. -/
def admits (h : Hierarchy α) (query : Query α) (key : Key α) : Bool :=
  h.count key ≠ 0 && query.region.all (fun region => region.overlaps key.bounds)

/-- Whether the nodes below a key may be looked at. -/
def opens (query : Query α) (key : Key α) : Bool :=
  query.depthLimit.all (fun limit => key.address.depth < limit)

/-- The qualifying nodes from a key down to `levels` levels below it. -/
def visit (h : Hierarchy α) (query : Query α) : (levels : Nat) → Key α → List (Key α)
  | 0, key => if h.admits query key then [key] else []
  | levels + 1, key =>
    if h.admits query key then
      if opens query key then key :: key.octants.flatMap (h.visit query levels) else [key]
    else []

/-- The levels below a key that its octants can reach. -/
def levelsBelow (key : Key α) : Nat := Address.maxDepth - key.address.depth.toNat

/-- The qualifying nodes from a start key down, in key order. -/
def select (h : Hierarchy α) (start : Key α) (query : Query α) : List (Key α) :=
  (h.visit query (levelsBelow start) start).mergeSort (fun a b => (compare a b).isLE)

end Hierarchy

end PointTiles
