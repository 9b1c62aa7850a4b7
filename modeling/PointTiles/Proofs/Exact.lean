import Mathlib.Algebra.Order.Field.Rat
import Mathlib.Tactic.FieldSimp
import Mathlib.Tactic.Linarith
import Mathlib.Tactic.Ring
import PointTiles.Box

/-! # Exact coordinates

Boxes in rational coordinates, where the operations of `Coordinate` are those of the field and its
order. A half of a span is half as long, and an octant of a box has an eighth of its volume.

* `Span.size_halve`, `Span.exists_halve_contains`: the two halves of a span.
* `Span.sharedSize_eq_zero`: spans that do not reach into each other.
* `Box.contains_iff`, `Box.sharedVolume_eq_zero`: boxes by their spans.
* `Box.volume_octant`, `Box.sum_volume_octants`: the octants of a box.
-/

namespace PointTiles
set_option autoImplicit false

namespace Coordinate

@[simp] theorem zero_eq : (zero : Rat) = 0 := rfl

@[simp] theorem add_eq (a b : Rat) : add a b = a + b := rfl

@[simp] theorem sub_eq (a b : Rat) : sub a b = a - b := rfl

@[simp] theorem mul_eq (a b : Rat) : mul a b = a * b := rfl

@[simp] theorem half_eq (a : Rat) : half a = a / 2 := rfl

@[simp] theorem le_iff (a b : Rat) : le a b = true ↔ a ≤ b := decide_eq_true_iff

@[simp] theorem lt_iff (a b : Rat) : lt a b = true ↔ a < b := decide_eq_true_iff

@[simp] theorem least_eq (a b : Rat) : least a b = min a b := by
  rcases lt_or_ge a b with hlt | hge
  · rw [least, if_pos ((lt_iff a b).2 hlt), min_eq_left hlt.le]
  · rw [least, if_neg (mt (lt_iff a b).1 hge.not_gt), min_eq_right hge]

@[simp] theorem greatest_eq (a b : Rat) : greatest a b = max a b := by
  rcases lt_or_ge b a with hlt | hge
  · rw [greatest, if_pos ((lt_iff b a).2 hlt), max_eq_left hlt.le]
  · rw [greatest, if_neg (mt (lt_iff b a).1 hge.not_gt), max_eq_right hge]

end Coordinate

/-! ## Spans -/

namespace Span

variable {s t : Span Rat} {a : Rat}

theorem middle_eq (s : Span Rat) : s.middle = s.lo + (s.hi - s.lo) / 2 := by
  simp [middle]

theorem ordered_iff : s.ordered = true ↔ s.lo ≤ s.hi := Coordinate.le_iff _ _

theorem contains_iff : s.contains a = true ↔ s.lo ≤ a ∧ a ≤ s.hi := by
  simp [contains]

theorem size_eq (s : Span Rat) : s.size = s.hi - s.lo := by
  simp [size]

theorem sharedSize_eq (s t : Span Rat) :
    s.sharedSize t = max (min s.hi t.hi - max s.lo t.lo) 0 := by
  simp [sharedSize]

theorem size_halve (upper : Bool) (s : Span Rat) : (s.halve upper).size = s.size / 2 := by
  cases upper <;> simp only [halve, if_true, Bool.false_eq_true, if_false, size_eq, middle_eq] <;> ring

theorem halve_within (upper : Bool) (h : s.lo ≤ s.hi) :
    s.lo ≤ (s.halve upper).lo ∧ (s.halve upper).lo ≤ (s.halve upper).hi ∧
      (s.halve upper).hi ≤ s.hi := by
  have hlow : s.lo ≤ s.middle := by rw [middle_eq]; linarith
  have hhigh : s.middle ≤ s.hi := by rw [middle_eq]; linarith
  cases upper with
  | true => exact ⟨hlow, hhigh, le_rfl⟩
  | false => exact ⟨le_rfl, hlow, hhigh⟩

theorem exists_halve_contains (h : s.contains a = true) :
    ∃ upper, (s.halve upper).contains a = true := by
  obtain ⟨hlo, hhi⟩ := contains_iff.1 h
  rcases le_total a s.middle with hlow | hhigh
  · exact ⟨false, contains_iff.2 ⟨hlo, hlow⟩⟩
  · exact ⟨true, contains_iff.2 ⟨hhigh, hhi⟩⟩

/-- Where one span ends before the other begins, they have no length in common. -/
theorem sharedSize_eq_zero (h : s.hi ≤ t.lo ∨ t.hi ≤ s.lo) : s.sharedSize t = 0 := by
  rw [sharedSize_eq, max_eq_right_iff, sub_nonpos]
  rcases h with hst | hts
  · exact (min_le_left _ _).trans (hst.trans (le_max_right _ _))
  · exact (min_le_right _ _).trans (hts.trans (le_max_left _ _))

end Span

/-! ## Boxes -/

namespace Box

variable {a b : Box Rat} {p : Vec Rat}

theorem ordered_iff : b.ordered = true ↔ ∀ axis, (b.on axis).lo ≤ (b.on axis).hi := by
  simp only [ordered, Vec.all_eq_true, Span.ordered_iff]

theorem contains_iff : b.contains p = true ↔
    ∀ axis, (b.on axis).lo ≤ p.on axis ∧ p.on axis ≤ (b.on axis).hi := by
  simp only [contains, Vec.all_eq_true, Vec.on_zipWith, id_eq, Span.contains_iff]

theorem product_eq (v : Vec Rat) : v.product = v.x * v.y * v.z := by
  simp [Vec.product]

theorem product_eq_zero {v : Vec Rat} (axis : Axis) (h : v.on axis = 0) : v.product = 0 := by
  rw [product_eq]
  cases axis with
  | x => rw [show v.x = 0 from h, zero_mul, zero_mul]
  | y => rw [show v.y = 0 from h, mul_zero, zero_mul]
  | z => rw [show v.z = 0 from h, mul_zero]

/-- Boxes that share no length on one axis share no volume. -/
theorem sharedVolume_eq_zero (axis : Axis)
    (h : (a.on axis).hi ≤ (b.on axis).lo ∨ (b.on axis).hi ≤ (a.on axis).lo) :
    a.sharedVolume b = 0 := by
  refine product_eq_zero axis ?_
  rw [Vec.on_zipWith]
  exact Span.sharedSize_eq_zero h

theorem volume_octant (o : Octant) (b : Box Rat) : (b.octant o).volume = b.volume / 8 := by
  have hsize : (b.octant o).size = b.size.map (· / 2) := by
    refine Vec.ext_on (fun axis => ?_)
    simp only [size, octant, Vec.on_map, Vec.on_zipWith, Span.size_halve]
  rw [volume, volume, hsize, product_eq, product_eq]
  simp only [Vec.map]
  ring

theorem sum_volume_octants (b : Box Rat) :
    (Octant.all.map fun o => (b.octant o).volume).sum = b.volume := by
  have hlength : Octant.all.length = 8 := rfl
  simp only [volume_octant, List.map_const', List.sum_replicate, hlength]
  rw [nsmul_eq_mul]
  push_cast
  ring

end Box

end PointTiles
