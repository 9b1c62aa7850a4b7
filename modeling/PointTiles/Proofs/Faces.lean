import PointTiles.Proofs.Descent

/-! # The faces of cells

What a descent does to one axis of a box depends on nothing but that axis: the root's span is halved
level by level, on the sides that the bits of the cell's coordinate name. Neighbours of one level may
part as high up as the root, and still they share a face, because each half copies the outer faces of
the span it is cut from.

* `Span.cell`: the span of a cell, from its parent's.
* `Span.hi_cell`: a cell ends where the next one begins.
* `Key.bounds_on_descend`: the box of a cell has these spans.
* `Key.level_has_no_gap`: the cells of one level.

No law of coordinates is used: the middle of a span may be any value.
-/

namespace PointTiles
set_option autoImplicit false

-- Powers of numbers are those of the core library, whatever else is imported.
attribute [local instance (high)] instPowNat

variable {α : Type} [Coordinate α]

/-! ## Cells of a span -/

namespace Span

/-- The span of a cell so many levels down: the half of its parent's that the coordinate's last bit
names. -/
def cell (s : Span α) : (level c : Nat) → Span α
  | 0, _ => s
  | level + 1, c => (s.cell level (c / 2)).halve (c.testBit 0)

theorem cell_even (s : Span α) (level c : Nat) :
    s.cell (level + 1) (2 * c) = (s.cell level c).halve false := by
  have hhalf : 2 * c / 2 = c := by omega
  have hbit : (2 * c).testBit 0 = false := by simp
  rw [cell, hhalf, hbit]

theorem cell_odd (s : Span α) (level c : Nat) :
    s.cell (level + 1) (2 * c + 1) = (s.cell level c).halve true := by
  have hhalf : (2 * c + 1) / 2 = c := by omega
  have hbit : (2 * c + 1).testBit 0 = true := by simp
  rw [cell, hhalf, hbit]

theorem hi_halve_false (s : Span α) : (s.halve false).hi = (s.halve true).lo := rfl

theorem lo_halve_false (s : Span α) : (s.halve false).lo = s.lo := rfl

theorem hi_halve_true (s : Span α) : (s.halve true).hi = s.hi := rfl

/-- A cell ends where the next one begins. -/
theorem hi_cell (s : Span α) {level c : Nat} (h : c + 1 < 2 ^ level) :
    (s.cell level c).hi = (s.cell level (c + 1)).lo := by
  induction level generalizing c with
  | zero => simp at h
  | succ level ih =>
    rcases Nat.mod_two_eq_zero_or_one c with heven | hodd
    · -- Both are halves of one parent.
      obtain ⟨parent, rfl⟩ : ∃ parent, c = 2 * parent := ⟨c / 2, by omega⟩
      rw [cell_even, cell_odd, hi_halve_false]
    · -- Their parents are neighbours, and each keeps the face on its outer side.
      obtain ⟨parent, rfl⟩ : ∃ parent, c = 2 * parent + 1 := ⟨c / 2, by omega⟩
      have hparent : parent + 1 < 2 ^ level := by
        rw [Nat.pow_succ] at h
        omega
      have hnext : 2 * parent + 1 + 1 = 2 * (parent + 1) := by omega
      rw [hnext, cell_odd, cell_even, hi_halve_true, lo_halve_false, ih hparent]

theorem lo_cell_zero (s : Span α) (level : Nat) : (s.cell level 0).lo = s.lo := by
  induction level with
  | zero => rfl
  | succ level ih =>
    have hstep := cell_even s level 0
    rw [Nat.mul_zero] at hstep
    rw [hstep, lo_halve_false, ih]

theorem hi_cell_last (s : Span α) (level : Nat) : (s.cell level (2 ^ level - 1)).hi = s.hi := by
  induction level with
  | zero => rfl
  | succ level ih =>
    have hpos : 0 < 2 ^ level := Nat.two_pow_pos level
    have hlast : 2 ^ (level + 1) - 1 = 2 * (2 ^ level - 1) + 1 := by
      rw [Nat.pow_succ]
      omega
    rw [hlast, cell_odd, hi_halve_true, ih]

/-- Halving from the top, the highest bit first, comes to the same. -/
theorem foldl_halve (s : Span α) (level c : Nat) :
    ((List.range level).reverse.map c.testBit).foldl (fun s upper => s.halve upper) s =
      s.cell level c := by
  induction level generalizing c with
  | zero => rfl
  | succ level ih =>
    have hbits : (List.range (level + 1)).reverse.map c.testBit =
        (List.range level).reverse.map (c / 2).testBit ++ [c.testBit 0] := by
      rw [List.range_succ_eq_map, List.reverse_cons, List.map_append, ← List.map_reverse,
        List.map_map]
      congr 1
      refine List.map_congr_left (fun n _ => ?_)
      exact Nat.testBit_succ c n
    rw [hbits, List.foldl_append, ih]
    rfl

end Span

/-! ## Cells of a box -/

namespace Key

theorem bounds_on_along (key : Key α) (path : List Octant) (axis : Axis) :
    (key.along path).bounds.on axis =
      (path.map fun o => o.on axis).foldl (fun s upper => s.halve upper) (key.bounds.on axis) := by
  induction path generalizing key with
  | nil => rfl
  | cons o path ih =>
    have hhalf : (key.octant o).bounds.on axis = (key.bounds.on axis).halve (o.on axis) :=
      Vec.on_zipWith Span.halve o key.bounds axis
    rw [along, ih, hhalf, List.map_cons, List.foldl_cons]

theorem bounds_on_descend {bounds : Box α} {a : Address} {key : Key α}
    (h : descend bounds a = .ok key) (axis : Axis) :
    key.bounds.on axis = (bounds.on axis).cell a.depth.toNat (a.cell.on axis).toNat := by
  obtain ⟨-, rfl⟩ := descend_eq_ok_iff.1 h
  have hbits : (a.path.map fun o => o.on axis) =
      (List.range a.depth.toNat).reverse.map (a.cell.on axis).toNat.testBit := by
    rw [Address.path, List.map_map]
    refine List.map_congr_left (fun level _ => ?_)
    exact Vec.on_map _ a.cell axis
  rw [bounds_on_along, hbits, Span.foldl_halve]
  rfl

/-- Every cell of a level has a key. What its box is on an axis depends on the root's span on that
axis, the level and the coordinate there alone, whichever axis it is. Two cells with neighbouring
coordinates on an axis, whatever their others, meet in one and the same value, and the first and the
last keep the ends of the root. -/
theorem level_has_no_gap (bounds : Box α) (d : UInt64) (hd : d.toNat ≤ 63) :
    (∀ a : Address, a.depth = d → a.InGrid → ∃ key, descend bounds a = .ok key) ∧
    ∀ (a : Address) (key : Key α), a.depth = d → descend bounds a = .ok key → ∀ axis,
      (∀ (bounds' : Box α) (b : Address) (key' : Key α) (axis' : Axis), b.depth = d →
        descend bounds' b = .ok key' → bounds'.on axis' = bounds.on axis →
        b.cell.on axis' = a.cell.on axis → key'.bounds.on axis' = key.bounds.on axis) ∧
      (∀ (b : Address) (next : Key α), b.depth = d → descend bounds b = .ok next →
        (b.cell.on axis).toNat = (a.cell.on axis).toNat + 1 →
        (key.bounds.on axis).hi = (next.bounds.on axis).lo) ∧
      ((a.cell.on axis).toNat = 0 → (key.bounds.on axis).lo = (bounds.on axis).lo) ∧
      ((a.cell.on axis).toNat = 2 ^ d.toNat - 1 →
        (key.bounds.on axis).hi = (bounds.on axis).hi) := by
  constructor
  · rintro a rfl hgrid
    exact ⟨_, descend_eq_ok_iff.2 ⟨⟨hd, hgrid⟩, rfl⟩⟩
  · rintro a key rfl hkey axis
    have hspan := bounds_on_descend hkey axis
    refine ⟨fun bounds' b key' axis' hdepth hkey' hbounds hcoordinate => ?_,
      fun b next hdepth hnext hcoordinate => ?_, fun hfirst => ?_, fun hlast => ?_⟩
    · rw [hspan, bounds_on_descend hkey' axis', hbounds, hcoordinate, hdepth]
    · obtain ⟨⟨-, hgrid⟩, -⟩ := descend_eq_ok_iff.1 hnext
      have hinside := hgrid axis
      rw [hcoordinate, hdepth] at hinside
      rw [hspan, bounds_on_descend hnext axis, hcoordinate, hdepth, Span.hi_cell _ hinside]
    · rw [hspan, hfirst, Span.lo_cell_zero]
    · rw [hspan, hlast, Span.hi_cell_last]

/-- Two cells on the second level that meet in the middle of the root, far apart on the other
axes. -/
theorem level_has_no_gap_across_middle :
    let bounds : Box Rat := ⟨⟨0, 1⟩, ⟨0, 1⟩, ⟨0, 1⟩⟩
    let a : Address := ⟨2, ⟨1, 0, 3⟩⟩
    let b : Address := ⟨2, ⟨2, 3, 0⟩⟩
    (2 : UInt64).toNat ≤ 63 ∧ ∃ key next, descend bounds a = .ok key ∧ descend bounds b = .ok next ∧
      (b.cell.on .x).toNat = (a.cell.on .x).toNat + 1 ∧
      (key.bounds.on .x).hi = (next.bounds.on .x).lo ∧ (next.bounds.on .x).lo = 1 / 2 ∧
      (key.bounds.on .y).lo = 0 ∧ (key.bounds.on .z).hi = 1 := by
  intro bounds a b
  have hlevel : (2 : UInt64).toNat ≤ 63 := by decide
  obtain ⟨hkeys, hcells⟩ := level_has_no_gap bounds 2 hlevel
  obtain ⟨key, hkey⟩ := hkeys a rfl (by decide)
  obtain ⟨next, hnext⟩ := hkeys b rfl (by decide)
  have hsides := hcells a key rfl hkey
  obtain ⟨-, hmeet, -, -⟩ := hsides .x
  obtain ⟨-, -, hfirst, -⟩ := hsides .y
  obtain ⟨-, -, -, hlast⟩ := hsides .z
  refine ⟨hlevel, key, next, hkey, hnext, rfl, hmeet b next rfl hnext rfl, ?_, hfirst rfl, hlast rfl⟩
  rw [bounds_on_descend hnext]
  decide +kernel

end Key

end PointTiles
