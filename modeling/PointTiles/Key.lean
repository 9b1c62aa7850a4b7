import PointTiles.Box

/-! # Octree keys

A key is the address of a node together with the node's box. Keys are compared and hashed by their
addresses alone.

* `Key.bisect`: the key of an octant. It fails only where the depth is the greatest word.
* `Key.follow`: bisects along a list of octants.
* `Key.descend`: the key at an address in a root box, found by following the address's path, so that
  it has the very box that bisection gives.
-/

namespace PointTiles
set_option autoImplicit false

-- Powers of numbers are those of the core library, whatever else is imported.
attribute [local instance (high)] instPowNat

structure Key (α : Type) where
  address : Address
  bounds : Box α

namespace Key

variable {α : Type} [Coordinate α]

/-- The order of keys is that of their addresses. -/
instance : Ord (Key α) where
  compare a b := compare a.address b.address

instance : LT (Key α) := ltOfOrd

instance : BEq (Key α) where
  beq a b := a.address == b.address

/-- Feeds a key to a hasher, word by word. -/
def hashInto {σ : Type} (write : σ → UInt64 → σ) (state : σ) (key : Key α) : σ :=
  key.address.words.foldl write state

/-- The key at an address, with an empty box at the origin. -/
def ofAddress (a : Address) : Key α := ⟨a, Box.zero⟩

/-- The key that a text denotes, with an empty box at the origin. -/
def ofText (s : String) : Except Fault (Key α) :=
  match Address.ofText? s with
  | some a => .ok (ofAddress a)
  | none => .error (.malformedKey s)

def root (bounds : Box α) : Key α := ⟨Address.root, bounds⟩

/-! ## Descending -/

/-- The key of an octant, its depth counted in words. -/
def octant (o : Octant) (key : Key α) : Key α := ⟨key.address.child o, key.bounds.octant o⟩

def bisect (o : Octant) (key : Key α) : Except Fault (Key α) :=
  if key.address.depth.toNat + 1 < UInt64.size then .ok (key.octant o) else .error .additionOverflow

/-- The keys of the eight octants in order, depths counted in words. -/
def octants (key : Key α) : List (Key α) := Octant.all.map key.octant

def children (key : Key α) : Except Fault (List (Key α)) := Octant.all.mapM key.bisect

def follow : List Octant → Key α → Except Fault (Key α)
  | [], key => .ok key
  | o :: path, key => do follow path (← key.bisect o)

/-- The key at an address in a root box. -/
def descend (bounds : Box α) (a : Address) : Except Fault (Key α) :=
  if Address.maxDepth < a.depth.toNat then .error (.keyTooDeep a)
  else if a.InGrid then follow a.path (root bounds)
  else .error (.keyOutsideGrid a)

theorem bisect_eq_octant (o : Octant) (key : Key α) (h : key.address.depth.toNat < 2 ^ (64 : Nat) - 1) :
    key.bisect o = .ok (key.octant o) := by
  have fits : key.address.depth.toNat + 1 < UInt64.size := by
    simp only [UInt64.size]
    omega
  simp [bisect, fits]

/-! ## Coordinates by number -/

def coordinates (key : Key α) : List UInt64 :=
  [key.address.cell.x, key.address.cell.y, key.address.cell.z]

def coordinate (key : Key α) (index : Nat) : Except Fault UInt64 :=
  match key.coordinates[index]? with
  | some c => .ok c
  | none => .error (.noCellCoordinate index)

def setCoordinate (key : Key α) (index : Nat) (c : UInt64) : Except Fault (Key α) :=
  let at? : Option Axis := [Axis.x, Axis.y, Axis.z][index]?
  match at? with
  | some axis => .ok { key with address.cell := key.address.cell.set axis c }
  | none => .error (.noCellCoordinate index)

end Key

end PointTiles
