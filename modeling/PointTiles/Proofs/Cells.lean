import Mathlib.Data.List.Nodup
import Mathlib.Data.List.Perm.Subperm
import Mathlib.Tactic.Linarith
import PointTiles.Proofs.Descent

/-! # How many cells there are

The cells of all levels are numbered, so that a list of different cells is no longer than the
numbers go: `length_le_of_nodup`.
-/

namespace PointTiles.Address
set_option autoImplicit false

/-- A number for the address of a cell, with the coordinates as digits below a leading one. -/
def rank (a : Address) : Nat :=
  ((1 * 2 ^ a.depth.toNat + a.cell.x.toNat) * 2 ^ a.depth.toNat + a.cell.y.toNat) *
    2 ^ a.depth.toNat + a.cell.z.toNat

theorem rank_bounds {a : Address} (hgrid : a.InGrid) :
    2 ^ (3 * a.depth.toNat) ≤ a.rank ∧ a.rank < 2 ^ (3 * a.depth.toNat + 1) := by
  have hx : a.cell.x.toNat < 2 ^ a.depth.toNat := hgrid .x
  have hy : a.cell.y.toNat < 2 ^ a.depth.toNat := hgrid .y
  have hz : a.cell.z.toNat < 2 ^ a.depth.toNat := hgrid .z
  have hcube : 2 ^ (3 * a.depth.toNat) =
      2 ^ a.depth.toNat * 2 ^ a.depth.toNat * 2 ^ a.depth.toNat := by
    rw [← Nat.pow_add, ← Nat.pow_add]
    congr 1
    omega
  rw [rank, Nat.pow_succ, hcube]
  generalize 2 ^ a.depth.toNat = side at *
  constructor
  · nlinarith [Nat.zero_le (a.cell.x.toNat * side * side), Nat.zero_le (a.cell.y.toNat * side)]
  · nlinarith [Nat.mul_le_mul_right (side * side) (Nat.succ_le_of_lt hx),
      Nat.mul_le_mul_right side (Nat.succ_le_of_lt hy)]

theorem rank_injective {a b : Address} (ha : a.InGrid) (hb : b.InGrid) (h : a.rank = b.rank) :
    a = b := by
  obtain ⟨hlow, hhigh⟩ := rank_bounds ha
  obtain ⟨hlow', hhigh'⟩ := rank_bounds hb
  have hle : 3 * a.depth.toNat < 3 * b.depth.toNat + 1 :=
    (Nat.pow_lt_pow_iff_right (Nat.lt_succ_self 1)).1 (hlow.trans_lt (h ▸ hhigh'))
  have hge : 3 * b.depth.toNat < 3 * a.depth.toNat + 1 :=
    (Nat.pow_lt_pow_iff_right (Nat.lt_succ_self 1)).1 (hlow'.trans_lt (h ▸ hhigh))
  have hdepth : a.depth.toNat = b.depth.toNat := by omega
  simp only [InGrid, hdepth] at ha
  simp only [rank, hdepth] at h
  obtain ⟨h, hz⟩ := Octant.digit_unique (ha .z) (hb .z) h
  obtain ⟨h, hy⟩ := Octant.digit_unique (ha .y) (hb .y) h
  obtain ⟨-, hx⟩ := Octant.digit_unique (ha .x) (hb .x) h
  exact toNats_injective (by simp only [toNats]; rw [hdepth]; exact congrArg _ (by
    rw [show a.cell.x.toNat = b.cell.x.toNat from hx, show a.cell.y.toNat = b.cell.y.toNat from hy,
      show a.cell.z.toNat = b.cell.z.toNat from hz]))

/-- There are at most `2 ^ 190` cells. -/
theorem length_le_of_nodup {addresses : List Address} (hnodup : addresses.Nodup)
    (hcells : ∀ a ∈ addresses, a.OfCell) : addresses.length ≤ 2 ^ 190 := by
  have hrank : ∀ a ∈ addresses, a.rank < 2 ^ 190 := by
    intro a ha
    obtain ⟨hdepth, hgrid⟩ := hcells a ha
    refine (rank_bounds hgrid).2.trans_le (Nat.pow_le_pow_right Nat.two_pos ?_)
    simp only [maxDepth] at hdepth
    omega
  have hnodup' : (addresses.map rank).Nodup :=
    List.Nodup.map_on (fun a ha b hb => rank_injective (hcells a ha).2 (hcells b hb).2) hnodup
  have hsub : addresses.map rank ⊆ List.range (2 ^ 190) := by
    intro n hn
    obtain ⟨a, ha, rfl⟩ := List.mem_map.1 hn
    exact List.mem_range.2 (hrank a ha)
  have hle := (hnodup'.subperm hsub).length_le
  rwa [List.length_map, List.length_range] at hle

end PointTiles.Address
