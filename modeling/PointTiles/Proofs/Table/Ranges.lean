import PointTiles.Proofs.Places
import PointTiles.Proofs.Registration

/-! # Where values lie

The bytes of a value are a range of the buffer, and the ranges of a table do not get in each other's
way.

* `Layout.Laid.within_point`, `Layout.Laid.in_order`: the values of a point lie inside of it, one
  behind the other.
* `PointTable.fieldRange_eq_ok_iff`: which values have a range.
* `PointTable.within_buffer`, `PointTable.ranges_disjoint`: ranges lie inside the buffer, and those
  of two values do not overlap. A value without bytes may lie anywhere in its point.
* `PointTable.point_of_lt`, `PointTable.field_eq_map`: what is read there.
-/

namespace PointTiles
set_option autoImplicit false

-- Sums of numbers begin at the zero of the core library, whatever else is imported.
attribute [local instance (high)] Zero.ofOfNat0

/-! ## Inside a point -/

theorem take_sum_add_le {sizes : List Nat} {k k' size : Nat} (hsize : sizes[k]? = some size)
    (hk : k < k') : (sizes.take k).sum + size ≤ (sizes.take k').sum := by
  obtain ⟨before, after, rfl, rfl⟩ := Places.exists_split hsize
  obtain ⟨more, rfl⟩ : ∃ more, k' = before.length + (more + 1) := ⟨k' - before.length - 1, by omega⟩
  rw [List.take_left' rfl, List.take_length_add_append, List.take_succ_cons, List.sum_append,
    List.sum_cons]
  omega

theorem take_sum_add_le_sum {sizes : List Nat} {k size : Nat} (hsize : sizes[k]? = some size) :
    (sizes.take k).sum + size ≤ sizes.sum := by
  have hk : k < sizes.length := (List.getElem?_eq_some_iff.1 hsize).1
  have hle := take_sum_add_le hsize hk
  rwa [List.take_length] at hle

namespace Layout

variable {l : Layout} {id id' : Nat} {d d' : Dimension}

theorem getElem?_sizes (hd : l.dimension? id = some d) :
    (l.dimensions.map Dimension.size)[id]? = some d.size := by
  rw [List.getElem?_map, show l.dimensions[id]? = some d from hd]
  rfl

theorem Laid.offset_eq (hl : l.Laid) (hd : l.dimension? id = some d) :
    d.offset = ((l.dimensions.map Dimension.size).take id).sum := by
  rw [hl.spaced id d hd, List.map_take]

theorem Laid.within_point (hl : l.Laid) (hd : l.dimension? id = some d) :
    d.offset + d.size ≤ l.pointSize := by
  rw [hl.offset_eq hd, hl.total]
  exact take_sum_add_le_sum (getElem?_sizes hd)

theorem Laid.in_order (hl : l.Laid) (hd : l.dimension? id = some d) (hd' : l.dimension? id' = some d')
    (hlt : id < id') : d.offset + d.size ≤ d'.offset := by
  rw [hl.offset_eq hd, hl.offset_eq hd']
  exact take_sum_add_le (getElem?_sizes hd) hlt

end Layout

namespace PointTable

variable {t : PointTable} {id id' index index' start start' length length' : Nat}

/-! ## Inside a buffer -/

theorem size_mul_le (t : PointTable) : t.size * t.layout.pointSize ≤ t.data.length := by
  rw [size]
  split
  · rw [Nat.zero_mul]
    exact Nat.zero_le _
  · exact Nat.div_mul_le_self _ _

theorem point_within_buffer (h : index < t.size) :
    (index + 1) * t.layout.pointSize ≤ t.data.length :=
  Nat.le_trans (Nat.mul_le_mul_right _ h) t.size_mul_le

theorem fieldRange_eq_ok_iff :
    t.fieldRange id index = .ok (start, length) ↔
      index < t.size ∧ ∃ d, t.layout.dimension? id = some d ∧
        start = index * t.layout.pointSize + d.offset ∧ length = d.size := by
  rw [fieldRange, pointStart]
  cases t.layout.dimension? id with
  | none => simp
  | some d =>
    by_cases hindex : index < t.size
    · rw [if_pos hindex]
      change Except.ok (index * t.layout.pointSize + d.offset, d.size) = .ok (start, length) ↔ _
      simp [hindex, eq_comm]
    · rw [if_neg hindex]
      change Except.error _ = Except.ok _ ↔ _
      simp [hindex]

/-- Ranges lie where they do whatever the bytes are. -/
theorem fieldRange_of_length {data : List UInt8} (hlength : data.length = t.data.length)
    (id index : Nat) : fieldRange { t with data } id index = t.fieldRange id index := by
  have hsize : size { t with data } = t.size := by rw [size, size, hlength]
  have hstart : pointStart { t with data } index = t.pointStart index := by
    rw [pointStart, pointStart, hsize]
  rw [fieldRange, fieldRange, hstart]

theorem within_point (hl : t.layout.Laid) (h : t.fieldRange id index = .ok (start, length)) :
    index * t.layout.pointSize ≤ start ∧ start + length ≤ (index + 1) * t.layout.pointSize := by
  obtain ⟨-, d, hd, rfl, rfl⟩ := fieldRange_eq_ok_iff.1 h
  have hwithin := hl.within_point hd
  rw [Nat.succ_mul]
  omega

theorem within_buffer (hl : t.layout.Laid) (h : t.fieldRange id index = .ok (start, length)) :
    start + length ≤ t.data.length :=
  Nat.le_trans (within_point hl h).2 (point_within_buffer (fieldRange_eq_ok_iff.1 h).1)

theorem end_le_of_index_lt (hl : t.layout.Laid) (h : t.fieldRange id index = .ok (start, length))
    (h' : t.fieldRange id' index' = .ok (start', length')) (hlt : index < index') :
    start + length ≤ start' :=
  calc start + length ≤ (index + 1) * t.layout.pointSize := (within_point hl h).2
    _ ≤ index' * t.layout.pointSize := Nat.mul_le_mul_right _ hlt
    _ ≤ start' := (within_point hl h').1

theorem end_le_of_id_lt (hl : t.layout.Laid) (h : t.fieldRange id index = .ok (start, length))
    (h' : t.fieldRange id' index = .ok (start', length')) (hlt : id < id') :
    start + length ≤ start' := by
  obtain ⟨-, d, hd, rfl, rfl⟩ := fieldRange_eq_ok_iff.1 h
  obtain ⟨-, d', hd', rfl, rfl⟩ := fieldRange_eq_ok_iff.1 h'
  have horder := hl.in_order hd hd' hlt
  omega

theorem ranges_disjoint (hl : t.layout.Laid) (h : t.fieldRange id index = .ok (start, length))
    (h' : t.fieldRange id' index' = .ok (start', length')) (hne : (id', index') ≠ (id, index)) :
    start + length ≤ start' ∨ start' + length' ≤ start := by
  rcases Nat.lt_trichotomy index index' with hlt | rfl | hlt
  · exact .inl (end_le_of_index_lt hl h h' hlt)
  · rcases Nat.lt_trichotomy id id' with hlt | rfl | hlt
    · exact .inl (end_le_of_id_lt hl h h' hlt)
    · exact absurd rfl hne
    · exact .inr (end_le_of_id_lt hl h' h hlt)
  · exact .inr (end_le_of_index_lt hl h' h hlt)

/-! ## Reading -/

theorem point_of_lt (h : index < t.size) :
    t.point index = .ok (t.slice (index * t.layout.pointSize) t.layout.pointSize) := by
  rw [point, pointStart, if_pos h]
  rfl

theorem field_eq_map (t : PointTable) (id index : Nat) :
    t.field id index = (t.fieldRange id index).map (fun range => t.slice range.1 range.2) := by
  rw [field]
  cases t.fieldRange id index <;> rfl

end PointTable

end PointTiles
