import PointTiles.Proofs.Pruning

/-! # What two boxes have in common

In rational coordinates two ordered boxes overlap in a box again. It may be flat, and then they only
touch: they have points in common, but no volume.

* `Span.common`, `Box.common`: from the greater lower end to the lesser upper one.
* `Box.overlaps_iff_ordered_common`: there is such a box where the boxes overlap, and not otherwise.
  `Box.sharedVolume_of_overlaps`: the volume in common is its volume.
* `Box.HasInside`: the points of a box that lie on none of its faces. `Box.SharesInside`: some box
  with an inside has it in two boxes. `Box.sharedVolume_pos_iff`: those that have a volume in common.
* `Box.overlap_agrees`: how overlapping, containing and volumes go together.
-/

namespace PointTiles
set_option autoImplicit false

/-! ## Spans -/

namespace Span

variable {s t : Span Rat} {a : Rat}

/-- From the greater lower end to the lesser upper one, which lie the wrong way round where one span
ends before the other begins. -/
def common (s t : Span Rat) : Span Rat := ⟨max s.lo t.lo, min s.hi t.hi⟩

theorem common_comm (s t : Span Rat) : s.common t = t.common s := by
  rw [common, common, max_comm, min_comm]

theorem sharedSize_eq_common (s t : Span Rat) : s.sharedSize t = max (s.common t).size 0 := by
  rw [sharedSize_eq, size_eq]
  rfl

theorem sharedSize_comm (s t : Span Rat) : s.sharedSize t = t.sharedSize s := by
  rw [sharedSize_eq_common, sharedSize_eq_common, common_comm]

theorem sharedSize_nonneg (s t : Span Rat) : 0 ≤ s.sharedSize t := by
  rw [sharedSize_eq_common]
  exact le_max_right _ _

theorem sharedSize_pos_iff : 0 < s.sharedSize t ↔ (s.common t).lo < (s.common t).hi := by
  rw [sharedSize_eq_common, lt_max_iff, or_iff_left (lt_irrefl _), size_eq, sub_pos]

theorem sharedSize_of_ordered (h : (s.common t).lo ≤ (s.common t).hi) :
    s.sharedSize t = (s.common t).size := by
  rw [sharedSize_eq_common, max_eq_left]
  rw [size_eq]
  exact sub_nonneg.2 h

theorem sharedSize_le (hs : s.lo ≤ s.hi) : s.sharedSize t ≤ s.size := by
  rw [sharedSize_eq_common, size_eq, size_eq]
  refine max_le (sub_le_sub ?_ ?_) (sub_nonneg.2 hs)
  · exact min_le_left _ _
  · exact le_max_left _ _

theorem common_contains_iff :
    ((s.common t).lo ≤ a ∧ a ≤ (s.common t).hi) ↔
      (s.lo ≤ a ∧ a ≤ s.hi) ∧ t.lo ≤ a ∧ a ≤ t.hi := by
  simp only [common, max_le_iff, le_min_iff]
  tauto

/-- Each lower end is below the upper end of the same span anyway. -/
theorem common_ordered_iff (hs : s.lo ≤ s.hi) (ht : t.lo ≤ t.hi) :
    (s.common t).lo ≤ (s.common t).hi ↔ s.lo ≤ t.hi ∧ t.lo ≤ s.hi := by
  simp only [common, max_le_iff, le_min_iff]
  tauto

theorem common_of_within (hlo : t.lo ≤ s.lo) (hhi : s.hi ≤ t.hi) : s.common t = s := by
  rw [common, max_eq_left hlo, min_eq_left hhi]

end Span

/-! ## Boxes -/

namespace Box

variable {a b c : Box Rat} {p v w : Vec Rat}

/-- The box in which two boxes overlap, not in order where they do not. -/
def common (a b : Box Rat) : Box Rat := Vec.zipWith Span.common a b

@[simp] theorem on_common (a b : Box Rat) (axis : Axis) :
    (a.common b).on axis = (a.on axis).common (b.on axis) :=
  Vec.on_zipWith _ _ _ _

/-- A point is in both boxes if it is in the box they have in common. -/
theorem contains_common_iff :
    (a.common b).contains p = true ↔ a.contains p = true ∧ b.contains p = true := by
  simp only [contains_iff, on_common, Span.common_contains_iff, forall_and]

theorem overlaps_iff_ordered_common (ha : a.ordered = true) (hb : b.ordered = true) :
    a.overlaps b = true ↔ (a.common b).ordered = true := by
  rw [ordered_iff] at ha hb ⊢
  rw [overlaps_iff]
  refine forall_congr' fun axis => ?_
  rw [on_common, Span.common_ordered_iff (ha axis) (hb axis)]

theorem contains_lower (h : b.ordered = true) : b.contains b.lower = true := by
  rw [contains_iff]
  intro axis
  rw [lower, Vec.on_map]
  exact ⟨le_rfl, ordered_iff.1 h axis⟩

theorem ordered_of_contains (h : b.contains p = true) : b.ordered = true := by
  rw [ordered_iff]
  intro axis
  obtain ⟨hlo, hhi⟩ := contains_iff.1 h axis
  exact hlo.trans hhi

theorem overlaps_iff_exists_contains (ha : a.ordered = true) (hb : b.ordered = true) :
    a.overlaps b = true ↔ ∃ p, a.contains p = true ∧ b.contains p = true := by
  simp only [overlaps_iff_ordered_common ha hb, ← contains_common_iff]
  exact ⟨fun h => ⟨_, contains_lower h⟩, fun ⟨_, h⟩ => ordered_of_contains h⟩

theorem overlaps_comm (a b : Box Rat) : a.overlaps b = b.overlaps a := by
  rw [Bool.eq_iff_iff, overlaps_iff, overlaps_iff]
  exact forall_congr' fun axis => and_comm

/-! ## Volumes -/

theorem product_pos_iff (h : ∀ axis, 0 ≤ v.on axis) :
    0 < v.product ↔ ∀ axis, 0 < v.on axis := by
  constructor
  · intro hpos axis
    refine lt_of_le_of_ne (h axis) fun hzero => hpos.ne' ?_
    exact product_eq_zero axis hzero.symm
  · intro hpos
    rw [product_eq]
    exact mul_pos (mul_pos (hpos .x) (hpos .y)) (hpos .z)

theorem product_le_product (h : ∀ axis, 0 ≤ v.on axis) (hle : ∀ axis, v.on axis ≤ w.on axis) :
    v.product ≤ w.product := by
  have hw : ∀ axis, 0 ≤ w.on axis := fun axis => (h axis).trans (hle axis)
  rw [product_eq, product_eq]
  refine mul_le_mul (mul_le_mul (hle .x) (hle .y) (h .y) (hw .x)) (hle .z) (h .z) ?_
  exact mul_nonneg (hw .x) (hw .y)

theorem sharedVolume_comm (a b : Box Rat) : a.sharedVolume b = b.sharedVolume a := by
  rw [sharedVolume, sharedVolume]
  congr 1
  refine Vec.ext_on fun axis => ?_
  rw [Vec.on_zipWith, Vec.on_zipWith, Span.sharedSize_comm]

theorem sharedVolume_le_volume (ha : a.ordered = true) : a.sharedVolume b ≤ a.volume := by
  refine product_le_product (fun axis => ?_) (fun axis => ?_)
  · rw [Vec.on_zipWith]
    exact Span.sharedSize_nonneg _ _
  · rw [Vec.on_zipWith, size, Vec.on_map]
    exact Span.sharedSize_le (ordered_iff.1 ha axis)

theorem sharedVolume_of_overlaps (ha : a.ordered = true) (hb : b.ordered = true)
    (h : a.overlaps b = true) : a.sharedVolume b = (a.common b).volume := by
  rw [overlaps_iff_ordered_common ha hb, ordered_iff] at h
  rw [sharedVolume, volume]
  congr 1
  refine Vec.ext_on fun axis => ?_
  have haxis := h axis
  rw [on_common] at haxis
  rw [Vec.on_zipWith, size, Vec.on_map, on_common, Span.sharedSize_of_ordered haxis]

/-- A box that has both its corners in another one shares its whole volume. -/
theorem sharedVolume_of_corners (ha : a.ordered = true) (hb : b.ordered = true)
    (hlower : b.contains a.lower = true) (hupper : b.contains a.upper = true) :
    a.sharedVolume b = a.volume := by
  have hoverlaps : a.overlaps b = true :=
    (overlaps_iff_exists_contains ha hb).2 ⟨_, contains_lower ha, hlower⟩
  have hcommon : a.common b = a := by
    refine Vec.ext_on fun axis => ?_
    have hlo := (contains_iff.1 hlower axis).1
    have hhi := (contains_iff.1 hupper axis).2
    rw [lower, Vec.on_map] at hlo
    rw [upper, Vec.on_map] at hhi
    rw [on_common, Span.common_of_within hlo hhi]
  rw [sharedVolume_of_overlaps ha hb hoverlaps, hcommon]

/-! ## Open boxes -/

/-- The point lies between the faces of the box and on none of them. -/
def HasInside (b : Box Rat) (p : Vec Rat) : Prop :=
  ∀ axis, (b.on axis).lo < p.on axis ∧ p.on axis < (b.on axis).hi

/-- There is a box that is flat on no axis, and all that lies inside it is in both boxes. -/
def SharesInside (a b : Box Rat) : Prop :=
  ∃ c : Box Rat, (∀ axis, (c.on axis).lo < (c.on axis).hi) ∧
    ∀ p, c.HasInside p → a.contains p = true ∧ b.contains p = true

theorem sharedVolume_pos_iff_common :
    0 < a.sharedVolume b ↔ ∀ axis, ((a.common b).on axis).lo < ((a.common b).on axis).hi := by
  have hnonneg : ∀ axis, 0 ≤ (Vec.zipWith Span.sharedSize a b).on axis := fun axis => by
    rw [Vec.on_zipWith]
    exact Span.sharedSize_nonneg _ _
  rw [sharedVolume, product_pos_iff hnonneg]
  simp only [Vec.on_zipWith, Span.sharedSize_pos_iff, on_common]

/-- The point that divides the box on every axis in the same proportion. -/
def dividedAt (c : Box Rat) (r : Rat) : Vec Rat := c.map fun s => s.lo + r * s.size

theorem hasInside_dividedAt {r : Rat} (hc : ∀ axis, (c.on axis).lo < (c.on axis).hi)
    (hpos : 0 < r) (hlt : r < 1) : c.HasInside (c.dividedAt r) := by
  intro axis
  rw [dividedAt, Vec.on_map, Span.size_eq]
  have hsize : 0 < (c.on axis).hi - (c.on axis).lo := sub_pos.2 (hc axis)
  constructor
  · exact lt_add_of_pos_right _ (mul_pos hpos hsize)
  · linarith [mul_lt_of_lt_one_left hsize hlt]

theorem sharedVolume_pos_iff : 0 < a.sharedVolume b ↔ a.SharesInside b := by
  rw [sharedVolume_pos_iff_common]
  constructor
  · intro h
    refine ⟨a.common b, h, fun p hp => contains_common_iff.1 (contains_iff.2 fun axis => ?_)⟩
    exact ⟨(hp axis).1.le, (hp axis).2.le⟩
  · -- Of two points inside, one after the other, both are in the common box.
    rintro ⟨c, hc, hinside⟩ axis
    have hfirst := contains_common_iff.2 (hinside _ (hasInside_dividedAt hc (r := 1 / 3)
      (by norm_num) (by norm_num)))
    have hsecond := contains_common_iff.2 (hinside _ (hasInside_dividedAt hc (r := 2 / 3)
      (by norm_num) (by norm_num)))
    have hlo := (contains_iff.1 hfirst axis).1
    have hhi := (contains_iff.1 hsecond axis).2
    rw [dividedAt, Vec.on_map, Span.size_eq] at hlo hhi
    linarith [hc axis]

theorem overlaps_of_sharedVolume_pos (ha : a.ordered = true) (hb : b.ordered = true)
    (h : 0 < a.sharedVolume b) : a.overlaps b = true := by
  rw [overlaps_iff_ordered_common ha hb, ordered_iff]
  exact fun axis => (sharedVolume_pos_iff_common.1 h axis).le

/-! ## All of it together -/

/-- Two ordered boxes overlap exactly if they have a point in common, and have a volume in common
exactly if they have the inside of a box in common. That volume is the same whichever box is asked, it
is at most that of the smaller box, and it is all of a box whose corners are in the other one. -/
theorem overlap_agrees (a b : Box Rat) (ha : a.ordered = true) (hb : b.ordered = true) :
    (a.overlaps b = true ↔ ∃ p, a.contains p = true ∧ b.contains p = true) ∧
    a.overlaps b = b.overlaps a ∧
    a.sharedVolume b = b.sharedVolume a ∧
    (0 < a.sharedVolume b ↔ a.SharesInside b) ∧
    (0 < a.sharedVolume b → a.overlaps b = true) ∧
    a.sharedVolume b ≤ min a.volume b.volume ∧
    (b.contains a.lower = true ∧ b.contains a.upper = true → a.sharedVolume b = a.volume) := by
  have hle : a.sharedVolume b ≤ min a.volume b.volume := by
    refine le_min (sharedVolume_le_volume ha) ?_
    rw [sharedVolume_comm]
    exact sharedVolume_le_volume hb
  exact ⟨overlaps_iff_exists_contains ha hb, overlaps_comm a b, sharedVolume_comm a b,
    sharedVolume_pos_iff, overlaps_of_sharedVolume_pos ha hb, hle,
    fun ⟨hlower, hupper⟩ => sharedVolume_of_corners ha hb hlower hupper⟩

/-- A cube against a box that only touches one of its faces, a box that reaches into it, and a flat
box within it. -/
theorem overlap_agrees_for_cube :
    let cube : Box Rat := Vec.replicate ⟨0, 2⟩
    let touching : Box Rat := ⟨⟨2, 3⟩, ⟨1, 3⟩, ⟨-1, 1⟩⟩
    let reaching : Box Rat := Vec.replicate ⟨1, 3⟩
    let flat : Box Rat := ⟨⟨1, 1⟩, ⟨0, 2⟩, ⟨1 / 2, 2⟩⟩
    (cube.overlaps touching = true ∧ cube.sharedVolume touching = 0 ∧
      (∃ p, cube.contains p = true ∧ touching.contains p = true) ∧
      ¬ cube.SharesInside touching) ∧
    (reaching.overlaps cube = true ∧ reaching.sharedVolume cube = 1 ∧ reaching.SharesInside cube) ∧
    (flat.overlaps cube = true ∧ flat.sharedVolume cube = flat.volume ∧
      ¬ flat.SharesInside cube) := by
  intro cube touching reaching flat
  obtain ⟨hpoint, -, -, hinside, -⟩ :=
    overlap_agrees cube touching (by decide +kernel) (by decide +kernel)
  obtain ⟨-, -, -, hinside', hoverlaps', -⟩ :=
    overlap_agrees reaching cube (by decide +kernel) (by decide +kernel)
  obtain ⟨-, -, -, hinside'', -, -, hcorners⟩ :=
    overlap_agrees flat cube (by decide +kernel) (by decide +kernel)
  have htouch : cube.overlaps touching = true := by decide +kernel
  have hzero : cube.sharedVolume touching = 0 := by decide +kernel
  have hone : reaching.sharedVolume cube = 1 := by decide +kernel
  have hpos : 0 < reaching.sharedVolume cube := by decide +kernel
  have hflat : ¬ 0 < flat.sharedVolume cube := by decide +kernel
  exact ⟨⟨htouch, hzero, hpoint.1 htouch, fun h => (hinside.2 h).ne' hzero⟩,
    ⟨hoverlaps' hpos, hone, hinside'.1 hpos⟩,
    ⟨by decide +kernel, hcorners ⟨by decide +kernel, by decide +kernel⟩, mt hinside''.2 hflat⟩⟩

end Box

end PointTiles
