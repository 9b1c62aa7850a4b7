import Std.Data.TreeMap
import PointTiles.Vec

/-! # Node addresses

The nodes of an octree are addressed by depth and grid cell: at depth `d` every axis is cut into
`2 ^ d` cells.

* `Octant`: which half of a cell on each axis, the upper one where the bit is set.
* `Address`: a depth and a cell, both in 64-bit words. Its order is by depth, then by the cell's
  `x`, `y` and `z`.
* `Address.child`: the cell of an octant one level deeper.
* `Address.path`: the octants from the root to an address.
-/

namespace PointTiles
set_option autoImplicit false

-- Powers of numbers are those of the core library, whatever else is imported.
attribute [local instance (high)] instPowNat

/-! ## Octants -/

/-- A half on each axis: `true` for the upper half. -/
abbrev Octant := Vec Bool

namespace Octant

/-- The octant whose bits 0, 1 and 2 are the halves on `x`, `y` and `z`; other bits do not count. -/
def ofByte (n : UInt8) : Octant := ⟨n.toNat.testBit 0, n.toNat.testBit 1, n.toNat.testBit 2⟩

/-- The eight octants in the order of their bytes. -/
def all : List Octant := (List.range 8).map (fun n => ofByte (UInt8.ofNat n))

end Octant

/-! ## Addresses -/

structure Address where
  depth : UInt64
  cell : Vec UInt64
  deriving DecidableEq, Repr

namespace Address

def root : Address := ⟨0, ⟨0, 0, 0⟩⟩

/-- The deepest level whose grid fits the words of a cell. -/
def maxDepth : Nat := 63

def toNats (a : Address) : List Nat :=
  [a.depth.toNat, a.cell.x.toNat, a.cell.y.toNat, a.cell.z.toNat]

/-- The words of an address, those that count most in its order first. -/
def words (a : Address) : List UInt64 := [a.depth, a.cell.x, a.cell.y, a.cell.z]

theorem toNats_injective {a b : Address} (h : a.toNats = b.toNats) : a = b := by
  obtain ⟨d, x, y, z⟩ := a
  obtain ⟨d', x', y', z'⟩ := b
  simp only [toNats, List.cons.injEq, UInt64.toNat_inj, and_true] at h
  obtain ⟨rfl, rfl, rfl, rfl⟩ := h
  rfl

instance : Ord Address where
  compare a b := compare a.toNats b.toNats

theorem compare_def (a b : Address) : compare a b = compare a.toNats b.toNats := rfl

instance : Std.TransOrd Address where
  eq_swap := by
    intro a b
    rw [compare_def, compare_def]
    exact Std.OrientedCmp.eq_swap
  isLE_trans := by
    intro a b c
    rw [compare_def, compare_def, compare_def]
    exact Std.TransCmp.isLE_trans

instance : Std.LawfulEqOrd Address where
  compare_self := by
    intro a
    rw [compare_def]
    exact Std.ReflCmp.compare_self
  eq_of_compare := by
    intro a b h
    rw [compare_def] at h
    exact toNats_injective (Std.LawfulEqCmp.eq_of_compare h)

/-- Whether the cell lies in the grid of its depth. -/
def InGrid (a : Address) : Prop := ∀ axis, (a.cell.on axis).toNat < 2 ^ a.depth.toNat

instance (a : Address) : Decidable a.InGrid :=
  if h : (a.cell.all fun c => c.toNat < 2 ^ a.depth.toNat) = true then
    .isTrue (by simpa [InGrid] using (Vec.all_eq_true _ _).1 h)
  else
    .isFalse (fun g => h ((Vec.all_eq_true _ _).2 (by simpa [InGrid] using g)))

/-- The cell of an octant one level deeper. A coordinate doubles, losing its top bit, and the upper
half adds one. -/
def child (octant : Octant) (a : Address) : Address :=
  let double (upper : Bool) (c : UInt64) : UInt64 := (c <<< 1) + if upper then 1 else 0
  ⟨a.depth + 1, Vec.zipWith double octant a.cell⟩

/-- The octant that a path to the address takes on its way from `level` levels above it: bit `level`
of each coordinate. -/
def octantAt (a : Address) (level : Nat) : Octant := a.cell.map (fun c => c.toNat.testBit level)

/-- The octants from the root to the address, the first one first. -/
def path (a : Address) : List Octant := ((List.range a.depth.toNat).reverse).map a.octantAt

end Address

end PointTiles
