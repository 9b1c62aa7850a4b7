import PointTiles.Proofs.Bisection
import PointTiles.Proofs.Exact
import PointTiles.Proofs.Faces
import PointTiles.Proofs.Places

/-! # Cells tile the root

In exact coordinates a level cuts every axis of the root into equal parts, and the cells of the level
are what the parts of the three axes make.

* `Span.cell_eq`: the part of an axis that belongs to a coordinate.
* `Span.exists_cell_contains`, `Span.hi_cell_le_lo_cell`: the parts of a level cover the axis, and
  do not reach into each other.
* `Key.along_within`, `Key.eq_of_follow_descend`: what is found by bisecting a cell lies inside of
  it, and is the cell at its address.
* `Key.cells_tile_root`: all of it together, with the volumes of octants.
-/

namespace PointTiles
set_option autoImplicit false

-- Powers of numbers are those of the core library, whatever else is imported.
attribute [local instance (high)] instPowNat

/-! ## Parts of an axis -/

namespace Span

variable {s : Span Rat}

theorem lo_halve_true (s : Span Rat) : (s.halve true).lo = s.middle := rfl

/-- A level cuts a span into `2 ^ level` parts of one length. -/
theorem cell_eq (s : Span Rat) {level c : Nat} (h : c < 2 ^ level) :
    (s.cell level c).lo = s.lo + c * (s.hi - s.lo) / 2 ^ level ∧
      (s.cell level c).hi = s.lo + (c + 1) * (s.hi - s.lo) / 2 ^ level := by
  induction level generalizing c with
  | zero =>
    obtain rfl : c = 0 := by simpa using h
    simp [cell]
  | succ level ih =>
    have hparent : c / 2 < 2 ^ level := by
      rw [Nat.pow_succ] at h
      omega
    obtain ⟨hlo, hhi⟩ := ih hparent
    rcases Nat.mod_two_eq_zero_or_one c with heven | hodd
    · obtain ⟨parent, rfl⟩ : ∃ parent, c = 2 * parent := ⟨c / 2, by omega⟩
      rw [Nat.mul_div_cancel_left parent Nat.two_pos] at hlo hhi
      rw [cell_even, hi_halve_false, lo_halve_false, lo_halve_true, middle_eq, hlo, hhi]
      push_cast
      constructor <;> field_simp <;> ring
    · obtain ⟨parent, rfl⟩ : ∃ parent, c = 2 * parent + 1 := ⟨c / 2, by omega⟩
      have hhalf : (2 * parent + 1) / 2 = parent := by omega
      rw [hhalf] at hlo hhi
      rw [cell_odd, hi_halve_true, lo_halve_true, middle_eq, hlo, hhi]
      push_cast
      constructor <;> field_simp <;> ring

/-- Whatever lies in a span lies in one of the parts of each level. -/
theorem exists_cell_contains {a : Rat} (h : s.contains a = true) (level : Nat) :
    ∃ c < 2 ^ level, (s.cell level c).contains a = true := by
  induction level with
  | zero => exact ⟨0, Nat.one_pos, h⟩
  | succ level ih =>
    obtain ⟨c, hc, hcontains⟩ := ih
    obtain ⟨upper, hupper⟩ := exists_halve_contains hcontains
    rw [Nat.pow_succ]
    cases upper with
    | true => exact ⟨2 * c + 1, by omega, by rw [cell_odd]; exact hupper⟩
    | false => exact ⟨2 * c, by omega, by rw [cell_even]; exact hupper⟩

/-- A part of a span ends before a later one begins. -/
theorem hi_cell_le_lo_cell {level c c' : Nat} (hs : s.lo ≤ s.hi) (hlt : c < c')
    (h : c' < 2 ^ level) : (s.cell level c).hi ≤ (s.cell level c').lo := by
  have hnext : (c : Rat) + 1 ≤ c' := by exact_mod_cast hlt
  have hlength : 0 ≤ s.hi - s.lo := sub_nonneg.2 hs
  rw [(cell_eq s (hlt.trans h)).2, (cell_eq s h).1]
  gcongr

theorem foldl_halve_within (hs : s.lo ≤ s.hi) (sides : List Bool) :
    s.lo ≤ (sides.foldl (fun s upper => s.halve upper) s).lo ∧
      (sides.foldl (fun s upper => s.halve upper) s).lo ≤
        (sides.foldl (fun s upper => s.halve upper) s).hi ∧
      (sides.foldl (fun s upper => s.halve upper) s).hi ≤ s.hi := by
  induction sides generalizing s with
  | nil => exact ⟨le_rfl, hs, le_rfl⟩
  | cons upper sides ih =>
    obtain ⟨hlo, hmiddle, hhi⟩ := halve_within upper hs
    obtain ⟨hlo', hmiddle', hhi'⟩ := ih hmiddle
    exact ⟨hlo.trans hlo', hmiddle', hhi'.trans hhi⟩

end Span

/-! ## Cells of a root -/

namespace Key

variable {bounds : Box Rat} {a b : Address} {key ancestor node : Key Rat}

theorem along_append {α : Type} [Coordinate α] (key : Key α) (path more : List Octant) :
    key.along (path ++ more) = (key.along path).along more := by
  induction path generalizing key with
  | nil => rfl
  | cons o path ih => exact ih _

/-- Bisection stays inside the box it began with. -/
theorem along_within (key : Key Rat) (path : List Octant) (axis : Axis)
    (h : (key.bounds.on axis).lo ≤ (key.bounds.on axis).hi) :
    (key.bounds.on axis).lo ≤ ((key.along path).bounds.on axis).lo ∧
      ((key.along path).bounds.on axis).lo ≤ ((key.along path).bounds.on axis).hi ∧
      ((key.along path).bounds.on axis).hi ≤ (key.bounds.on axis).hi := by
  rw [bounds_on_along]
  exact Span.foldl_halve_within h _

/-- What bisection of a cell finds at the address of a cell is that cell. -/
theorem eq_of_follow_descend {path : List Octant} (hkey : descend bounds a = .ok key)
    (hancestor : descend bounds b = .ok ancestor) (hfollow : follow path ancestor = .ok node)
    (hnode : node.address = a) : node = key := by
  obtain ⟨⟨hdepth, -⟩, -⟩ := descend_eq_ok_iff.1 hkey
  obtain ⟨hfits, rfl⟩ := follow_eq_ok_iff.1 hfollow
  have hb := descend_address hancestor
  obtain ⟨-, rfl⟩ := descend_eq_ok_iff.1 hancestor
  rw [along_address, hb] at hnode
  rw [hb] at hfits
  have hlength : (b.path ++ path).length ≤ Address.maxDepth := by
    rw [← hnode, Address.along_depth b path hfits] at hdepth
    rwa [List.length_append, Address.length_path]
  have hsame : descend bounds _ = .ok _ := descend_along hlength
  rw [along_append, along_address, hb, hnode, hkey] at hsame
  exact (Except.ok.inj hsame).symm

theorem coordinate_lt_of_descend (hkey : descend bounds a = .ok key) (axis : Axis) :
    (a.cell.on axis).toNat < 2 ^ a.depth.toNat :=
  (descend_eq_ok_iff.1 hkey).1.2 axis

/-- The box of a cell, from the root's and the address. -/
theorem bounds_eq_of_descend (hkey : descend bounds a = .ok key) (axis : Axis) :
    (key.bounds.on axis).lo = (bounds.on axis).lo + (a.cell.on axis).toNat *
        ((bounds.on axis).hi - (bounds.on axis).lo) / 2 ^ a.depth.toNat ∧
      (key.bounds.on axis).hi = (bounds.on axis).lo + ((a.cell.on axis).toNat + 1) *
        ((bounds.on axis).hi - (bounds.on axis).lo) / 2 ^ a.depth.toNat := by
  rw [bounds_on_descend hkey]
  exact Span.cell_eq _ (coordinate_lt_of_descend hkey axis)

theorem ordered_of_descend (hordered : bounds.ordered = true) (hkey : descend bounds a = .ok key)
    (axis : Axis) : (key.bounds.on axis).lo ≤ (key.bounds.on axis).hi := by
  obtain ⟨-, rfl⟩ := descend_eq_ok_iff.1 hkey
  exact (along_within (root bounds) a.path axis (Box.ordered_iff.1 hordered axis)).2.1

/-- Coordinates below the side of a grid are those of a cell. -/
theorem exists_address {d : UInt64} (hd : d.toNat ≤ 63) {c : Axis → Nat}
    (hc : ∀ axis, c axis < 2 ^ d.toNat) :
    ∃ a : Address, a.depth = d ∧ a.OfCell ∧ ∀ axis, (a.cell.on axis).toNat = c axis := by
  have hpow : 2 ^ d.toNat ≤ 2 ^ 63 := Nat.pow_le_pow_right Nat.two_pos hd
  have hword : ∀ axis, (UInt64.ofNat (c axis)).toNat = c axis := fun axis =>
    UInt64.toNat_ofNat_of_lt' ((hc axis).trans (hpow.trans_lt (by decide)))
  let a : Address := ⟨d, ⟨.ofNat (c .x), .ofNat (c .y), .ofNat (c .z)⟩⟩
  have hcell : ∀ axis, (a.cell.on axis).toNat = c axis := by
    intro axis
    cases axis <;> exact hword _
  refine ⟨a, rfl, ⟨hd, fun axis => ?_⟩, hcell⟩
  rw [hcell]
  exact hc axis

theorem exists_cell_contains {d : UInt64} (hd : d.toNat ≤ 63) {p : Vec Rat}
    (hp : bounds.contains p = true) :
    ∃ a key, a.depth = d ∧ descend bounds a = .ok key ∧ key.bounds.contains p = true := by
  have hparts : ∀ axis, ∃ c < 2 ^ d.toNat,
      ((bounds.on axis).cell d.toNat c).contains (p.on axis) = true := fun axis =>
    Span.exists_cell_contains (Span.contains_iff.2 (Box.contains_iff.1 hp axis)) _
  choose c hc hcontains using hparts
  obtain ⟨a, rfl, ha, hcell⟩ := exists_address hd hc
  have hkey : descend bounds a = .ok ((root bounds).along a.path) := descend_eq_ok_iff.2 ⟨ha, rfl⟩
  refine ⟨a, _, rfl, hkey, Box.contains_iff.2 (fun axis => ?_)⟩
  rw [bounds_on_descend hkey, hcell]
  exact Span.contains_iff.1 (hcontains axis)

theorem sharedVolume_of_ne {other : Key Rat} (hordered : bounds.ordered = true)
    (hdepth : a.depth = b.depth) (hne : a ≠ b) (hkey : descend bounds a = .ok key)
    (hother : descend bounds b = .ok other) : key.bounds.sharedVolume other.bounds = 0 := by
  obtain ⟨axis, haxis⟩ : ∃ axis, (a.cell.on axis).toNat ≠ (b.cell.on axis).toNat := by
    by_contra hsame
    push Not at hsame
    obtain ⟨depth, cell⟩ := a
    obtain ⟨depth', cell'⟩ := b
    obtain rfl : depth = depth' := hdepth
    exact hne (congrArg _ (Vec.ext_on fun axis => UInt64.toNat_inj.1 (hsame axis)))
  have hs := Box.ordered_iff.1 hordered axis
  have hlt := coordinate_lt_of_descend hkey axis
  have hlt' := coordinate_lt_of_descend hother axis
  refine Box.sharedVolume_eq_zero axis ?_
  rw [bounds_on_descend hkey, bounds_on_descend hother, ← hdepth]
  rw [← hdepth] at hlt'
  rcases Nat.lt_or_gt_of_ne haxis with hbefore | hbehind
  · exact .inl (Span.hi_cell_le_lo_cell hs hbefore hlt')
  · exact .inr (Span.hi_cell_le_lo_cell hs hbehind hlt)

theorem within_ancestor {path : List Octant} (hordered : bounds.ordered = true)
    (hkey : descend bounds a = .ok key) (hancestor : descend bounds b = .ok ancestor)
    (hfollow : follow path ancestor = .ok node) (hnode : node.address = a) (axis : Axis) :
    (ancestor.bounds.on axis).lo ≤ (key.bounds.on axis).lo ∧
      (key.bounds.on axis).hi ≤ (ancestor.bounds.on axis).hi := by
  obtain rfl := eq_of_follow_descend hkey hancestor hfollow hnode
  obtain ⟨-, rfl⟩ := follow_eq_ok_iff.1 hfollow
  have hwithin := along_within ancestor path axis (ordered_of_descend hordered hancestor axis)
  exact ⟨hwithin.1, hwithin.2.2⟩

theorem children_eq_octants (hdepth : key.address.depth.toNat ≤ 63) :
    key.children = .ok key.octants :=
  Places.mapM_eq_ok (fun o _ => bisect_eq_octant o key (by omega))

theorem sum_volume_octants (key : Key Rat) :
    (key.octants.map fun child => child.bounds.volume).sum = key.bounds.volume := by
  rw [octants, List.map_map]
  exact Box.sum_volume_octants key.bounds

/-- The cells of a level in exact coordinates. Every address in the grid has a cell, and its box is
cut from the root's, ordered or not, by the depth and the coordinates alone. In an ordered root each
point lies in a cell of the level, different cells of the level share no volume, a cell lies inside
every cell that bisection leads to it from, and the volumes of its eight children add up to its
own. -/
theorem cells_tile_root (bounds : Box Rat) (d : UInt64) (hd : d.toNat ≤ 63) :
    (∀ a : Address, a.depth = d → (∀ axis, (a.cell.on axis).toNat < 2 ^ d.toNat) →
      ∃ key, descend bounds a = .ok key ∧ ∀ axis,
        (key.bounds.on axis).lo = (bounds.on axis).lo +
          (a.cell.on axis).toNat * ((bounds.on axis).hi - (bounds.on axis).lo) / 2 ^ d.toNat ∧
        (key.bounds.on axis).hi = (bounds.on axis).lo +
          ((a.cell.on axis).toNat + 1) * ((bounds.on axis).hi - (bounds.on axis).lo) /
            2 ^ d.toNat) ∧
    (bounds.ordered = true →
      (∀ p, bounds.contains p = true →
        ∃ a key, a.depth = d ∧ descend bounds a = .ok key ∧ key.bounds.contains p = true) ∧
      ∀ a key, a.depth = d → descend bounds a = .ok key →
        (∀ b other, b.depth = d → a ≠ b → descend bounds b = .ok other →
          key.bounds.sharedVolume other.bounds = 0) ∧
        (∀ b ancestor path node, descend bounds b = .ok ancestor →
          follow path ancestor = .ok node → node.address = a →
          (∀ axis, (ancestor.bounds.on axis).lo ≤ (key.bounds.on axis).lo ∧
            (key.bounds.on axis).hi ≤ (ancestor.bounds.on axis).hi) ∧
          ∀ p, key.bounds.contains p = true → ancestor.bounds.contains p = true) ∧
        ∃ kids, key.children = .ok kids ∧ kids.length = 8 ∧
          (kids.map fun child => child.bounds.volume).sum = key.bounds.volume) := by
  refine ⟨?_, fun hordered => ⟨fun p => exists_cell_contains hd, ?_⟩⟩
  · rintro a rfl hgrid
    have hkey : descend bounds a = .ok ((root bounds).along a.path) :=
      descend_eq_ok_iff.2 ⟨⟨hd, hgrid⟩, rfl⟩
    exact ⟨_, hkey, bounds_eq_of_descend hkey⟩
  · rintro a key rfl hkey
    refine ⟨fun b other hdepth hne hother =>
      sharedVolume_of_ne hordered hdepth.symm hne hkey hother, ?_, key.octants, ?_, rfl,
      sum_volume_octants key⟩
    · intro b ancestor path node hancestor hfollow hnode
      have hwithin := within_ancestor hordered hkey hancestor hfollow hnode
      refine ⟨hwithin, fun p hp => Box.contains_iff.2 (fun axis => ?_)⟩
      obtain ⟨hlo, hhi⟩ := Box.contains_iff.1 hp axis
      exact ⟨(hwithin axis).1.trans hlo, hhi.trans (hwithin axis).2⟩
    · refine children_eq_octants ?_
      rw [descend_address hkey]
      exact hd

/-- Cells of the second level of a root that is flat on one axis, in two corners of it. -/
theorem cells_tile_root_flat :
    let bounds : Box Rat := ⟨⟨0, 1⟩, ⟨-1, 3⟩, ⟨2, 2⟩⟩
    let a : Address := ⟨2, ⟨1, 3, 0⟩⟩
    let b : Address := ⟨2, ⟨1, 3, 3⟩⟩
    (2 : UInt64).toNat ≤ 63 ∧ bounds.ordered = true ∧ ∃ key other,
      descend bounds a = .ok key ∧ descend bounds b = .ok other ∧
      (key.bounds.on .x).lo = 1 / 4 ∧ (key.bounds.on .y).hi = 3 ∧ (key.bounds.on .z).lo = 2 ∧
      key.bounds.sharedVolume other.bounds = 0 ∧
      ∃ kids, key.children = .ok kids ∧ kids.length = 8 ∧
        (kids.map fun child => child.bounds.volume).sum = key.bounds.volume := by
  intro bounds a b
  have hlevel : (2 : UInt64).toNat ≤ 63 := by decide
  have hordered : bounds.ordered = true := by decide +kernel
  have ha : a.InGrid := by decide
  have hb : b.InGrid := by decide
  obtain ⟨hcells, htiles⟩ := cells_tile_root bounds 2 hlevel
  obtain ⟨key, hkey, hbox⟩ := hcells a rfl ha
  obtain ⟨other, hother, -⟩ := hcells b rfl hb
  obtain ⟨hapart, -, hchildren⟩ := (htiles hordered).2 a key rfl hkey
  refine ⟨hlevel, hordered, key, other, hkey, hother, ?_, ?_, ?_,
    hapart b other rfl (by decide) hother, hchildren⟩
  · rw [(hbox .x).1]
    decide +kernel
  · rw [(hbox .y).2]
    decide +kernel
  · rw [(hbox .z).1]
    decide +kernel

end Key

end PointTiles
