import PointTiles.Proofs.Table.Ranges

/-! # Writing to a buffer

A table is a memory whose cells are the values of points. A write changes its own cell and nothing
else: no other value, no byte between or behind the points, and not the length of the buffer. What
fails changes nothing.

* `PointTable.getElem?_overwrite`: the bytes after some of them were replaced.
* `Layout.made_write`, `Layout.made_write_ok_iff`: what a write in place does.
* `PointTable.field_of_overwrite`, `PointTable.field_overwrite_of_ne`: reading what was written, and
  reading anything else.
* `PointTable.overwrite_comm`: where ranges do not overlap, the order of writes does not matter.
* `Layout.memory_laws`: all of it together.
-/

namespace PointTiles
set_option autoImplicit false

-- Sums of numbers begin at the zero of the core library, whatever else is imported.
attribute [local instance (high)] Zero.ofOfNat0

namespace PointTable

variable {t : PointTable} {data value value' : List UInt8}
  {id id' index index' start start' length : Nat}

/-! ## Replacing bytes -/

theorem length_overwrite (hfits : start + value.length ≤ data.length) :
    (overwrite data start value).length = data.length := by
  simp only [overwrite, List.length_append, List.length_take, List.length_drop]
  omega

theorem getElem?_overwrite (hfits : start + value.length ≤ data.length) (place : Nat) :
    (overwrite data start value)[place]? =
      if start ≤ place ∧ place < start + value.length then value[place - start]?
      else data[place]? := by
  have hbefore : (data.take start).length = start := List.length_take_of_le (by omega)
  rw [overwrite, List.append_assoc]
  rcases Nat.lt_or_ge place start with hlt | hge
  · rw [List.getElem?_append_left (by omega), List.getElem?_take_of_lt hlt, if_neg (by omega)]
  · rw [List.getElem?_append_right (by omega), hbefore]
    rcases Nat.lt_or_ge (place - start) value.length with hin | hout
    · rw [List.getElem?_append_left hin, if_pos (by omega)]
    · rw [List.getElem?_append_right hout, List.getElem?_drop, if_neg (by omega)]
      congr 1
      omega

theorem slice_overwrite (hfits : start + value.length ≤ data.length) (l : Layout) :
    slice ⟨l, overwrite data start value⟩ start value.length = value := by
  have hbefore : (data.take start).length = start := List.length_take_of_le (by omega)
  rw [slice, overwrite, List.append_assoc, List.drop_left' hbefore, List.take_left' rfl]

theorem slice_overwrite_of_disjoint (hfits : start + value.length ≤ data.length) (l : Layout)
    (hdisjoint : start + value.length ≤ start' ∨ start' + length ≤ start) :
    slice ⟨l, overwrite data start value⟩ start' length = slice ⟨l, data⟩ start' length := by
  refine List.ext_getElem? (fun place => ?_)
  rw [slice, slice, List.getElem?_take, List.getElem?_take]
  split
  · rw [List.getElem?_drop, List.getElem?_drop, getElem?_overwrite hfits, if_neg (by omega)]
  · rfl

theorem overwrite_comm (hfits : start + value.length ≤ data.length)
    (hfits' : start' + value'.length ≤ data.length)
    (hdisjoint : start + value.length ≤ start' ∨ start' + value'.length ≤ start) :
    overwrite (overwrite data start value) start' value' =
      overwrite (overwrite data start' value') start value := by
  have hlength := length_overwrite hfits
  have hlength' := length_overwrite hfits'
  refine List.ext_getElem? (fun place => ?_)
  rw [getElem?_overwrite (by rw [hlength]; exact hfits'), getElem?_overwrite hfits,
    getElem?_overwrite (by rw [hlength']; exact hfits), getElem?_overwrite hfits']
  -- A place lies in one of the two ranges at most.
  by_cases hin : start ≤ place ∧ place < start + value.length
  · rw [if_neg (by omega), if_pos hin, if_pos hin]
  · rw [if_neg hin, if_neg hin]

/-! ## Reading and writing values -/

theorem setField_of_range {size : Nat} (hrange : t.fieldRange id index = .ok (start, size)) :
    t.setField id index value =
      if value.length = size then .ok { t with data := overwrite t.data start value }
      else .error (.fieldSize size value.length) := by
  rw [setField, hrange]
  rfl

theorem setField_of_fault {fault : Fault} (hrange : t.fieldRange id index = .error fault) :
    t.setField id index value = .error fault := by
  rw [setField, hrange]
  rfl

theorem setField_eq_ok_iff {t' : PointTable} :
    t.setField id index value = .ok t' ↔ ∃ start, t.fieldRange id index = .ok (start, value.length) ∧
      t' = { t with data := overwrite t.data start value } := by
  cases hrange : t.fieldRange id index with
  | error fault => simp [setField_of_fault hrange]
  | ok range =>
    obtain ⟨start, size⟩ := range
    rw [setField_of_range hrange]
    by_cases hsize : value.length = size
    · rw [if_pos hsize, ← hsize]
      simp [eq_comm]
    · rw [if_neg hsize]
      simp [Ne.symm hsize]

theorem fieldRange_overwrite (hfits : start + value.length ≤ t.data.length) (id index : Nat) :
    fieldRange { t with data := overwrite t.data start value } id index = t.fieldRange id index :=
  fieldRange_of_length (length_overwrite hfits) id index

theorem field_of_overwrite (hl : t.layout.Laid)
    (hrange : t.fieldRange id index = .ok (start, value.length)) :
    field { t with data := overwrite t.data start value } id index = .ok value := by
  have hfits := within_buffer hl hrange
  rw [field_eq_map, fieldRange_overwrite hfits, hrange, Except.map, slice_overwrite hfits]

/-- Whatever is not the value that was written is read as before, and what cannot be read is refused
as before. -/
theorem field_overwrite_of_ne (hl : t.layout.Laid)
    (hrange : t.fieldRange id index = .ok (start, value.length))
    (hne : (id', index') ≠ (id, index)) :
    field { t with data := overwrite t.data start value } id' index' = t.field id' index' := by
  have hfits := within_buffer hl hrange
  rw [field_eq_map, field_eq_map, fieldRange_overwrite hfits]
  cases hrange' : t.fieldRange id' index' with
  | error fault => rfl
  | ok range =>
    obtain ⟨start', length⟩ := range
    rw [Except.map, Except.map,
      slice_overwrite_of_disjoint hfits t.layout (ranges_disjoint hl hrange hrange' hne)]

end PointTable

namespace Layout

variable {l : Layout} {data data' value value' : List UInt8} {id id' index index' : Nat}

/-! ## Writing in place -/

/-- A write in place leaves the bytes of the table that setting the value gives, and the bytes as
they were where that fails. -/
theorem made_write (l : Layout) (id index : Nat) (value data : List UInt8) :
    (l.write id index value).made data = match PointTable.setField ⟨l, data⟩ id index value with
      | .ok t => (.ok (), t.data)
      | .error fault => (.error fault, data) := by
  simp only [write, InPlace.made_bind, InPlace.made_get, InPlace.made_lift]
  cases hrange : PointTable.fieldRange ⟨l, data⟩ id index with
  | error fault => rw [PointTable.setField_of_fault hrange]
  | ok range =>
    obtain ⟨start, size⟩ := range
    rw [PointTable.setField_of_range hrange]
    by_cases hsize : value.length = size <;> simp [hsize]

theorem made_write_ok_iff :
    (l.write id index value).made data = (.ok (), data') ↔
      ∃ start, PointTable.fieldRange ⟨l, data⟩ id index = .ok (start, value.length) ∧
        data' = PointTable.overwrite data start value := by
  rw [made_write]
  cases hset : PointTable.setField ⟨l, data⟩ id index value with
  | error fault =>
    simp only [Prod.mk.injEq, reduceCtorEq, false_and, false_iff]
    rintro ⟨start, hrange, -⟩
    rw [PointTable.setField_eq_ok_iff.2 ⟨start, hrange, rfl⟩] at hset
    cases hset
  | ok t =>
    obtain ⟨start, hrange, rfl⟩ := PointTable.setField_eq_ok_iff.1 hset
    simp [hrange, eq_comm]

theorem made_write_error {fault : Fault}
    (h : (l.write id index value).made data = (.error fault, data')) : data' = data := by
  rw [made_write] at h
  cases hset : PointTable.setField ⟨l, data⟩ id index value with
  | error fault' =>
    rw [hset] at h
    exact (Prod.mk.inj h).2.symm
  | ok t =>
    rw [hset] at h
    cases h

theorem made_writes_ok_iff {data'' : List UInt8} :
    InPlace.made (do l.write id index value; l.write id' index' value') data = (.ok (), data'') ↔
      ∃ data', (l.write id index value).made data = (.ok (), data') ∧
        (l.write id' index' value').made data' = (.ok (), data'') := by
  rw [InPlace.made_bind]
  cases hfirst : (l.write id index value).made data with
  | mk answer data' => cases answer <;> simp

/-- Where both ranges lie in the buffer, the second write follows the first. -/
theorem made_writes {start start' : Nat} (hl : l.Laid)
    (hrange : PointTable.fieldRange ⟨l, data⟩ id index = .ok (start, value.length))
    (hrange' : PointTable.fieldRange ⟨l, data⟩ id' index' = .ok (start', value'.length)) :
    InPlace.made (do l.write id index value; l.write id' index' value') data =
      (.ok (), PointTable.overwrite (PointTable.overwrite data start value) start' value') := by
  have hsame := PointTable.fieldRange_overwrite (PointTable.within_buffer hl hrange) id' index'
  exact made_writes_ok_iff.2 ⟨_, made_write_ok_iff.2 ⟨start, hrange, rfl⟩,
    made_write_ok_iff.2 ⟨start', hsame.trans hrange', rfl⟩⟩

theorem exists_ranges_of_writes (hl : l.Laid)
    (h : InPlace.made (do l.write id index value; l.write id' index' value') data = (.ok (), data')) :
    ∃ start start', PointTable.fieldRange ⟨l, data⟩ id index = .ok (start, value.length) ∧
      PointTable.fieldRange ⟨l, data⟩ id' index' = .ok (start', value'.length) := by
  obtain ⟨between, hfirst, hsecond⟩ := made_writes_ok_iff.1 h
  obtain ⟨start, hrange, rfl⟩ := made_write_ok_iff.1 hfirst
  obtain ⟨start', hrange', -⟩ := made_write_ok_iff.1 hsecond
  have hsame := PointTable.fieldRange_overwrite (PointTable.within_buffer hl hrange) id' index'
  exact ⟨start, start', hrange, hsame.symm.trans hrange'⟩

/-- Writes to different values leave the same bytes in either order. -/
theorem made_writes_comm {start start' : Nat} (hl : l.Laid) (hne : (id', index') ≠ (id, index))
    (hrange : PointTable.fieldRange ⟨l, data⟩ id index = .ok (start, value.length))
    (hrange' : PointTable.fieldRange ⟨l, data⟩ id' index' = .ok (start', value'.length)) :
    InPlace.made (do l.write id' index' value'; l.write id index value) data =
      InPlace.made (do l.write id index value; l.write id' index' value') data := by
  have hdisjoint := PointTable.ranges_disjoint hl hrange hrange' hne
  have hcomm := PointTable.overwrite_comm (PointTable.within_buffer hl hrange)
    (PointTable.within_buffer hl hrange') hdisjoint
  rw [made_writes hl hrange hrange', made_writes hl hrange' hrange, hcomm]

/-! ## A table as a memory -/

/-- Writing to a buffer under a layout made by any calls. A write in place does what setting the
value in the table does. When it succeeds, the value is read back, whatever else can be read is read
as before, and every byte outside the value's range and the length of the buffer are as before. When
it fails, and when a point is to be added, no byte changes. Two writes to different values leave the
same bytes in either order, and where each of them succeeds, so do both. -/
theorem memory_laws (calls : List Call) (data : List UInt8) (id index : Nat) (value : List UInt8) :
    let l := empty.after calls
    (l.write id index value).made data = (match PointTable.setField ⟨l, data⟩ id index value with
      | .ok t => (.ok (), t.data)
      | .error fault => (.error fault, data)) ∧
    (∀ data', (l.write id index value).made data = (.ok (), data') →
      PointTable.field ⟨l, data'⟩ id index = .ok value ∧
      (∀ id' index', (id', index') ≠ (id, index) →
        PointTable.field ⟨l, data'⟩ id' index' = PointTable.field ⟨l, data⟩ id' index') ∧
      (∃ d, l.dimension? id = some d ∧ ∀ place,
        ¬ (index * l.pointSize + d.offset ≤ place ∧
          place < index * l.pointSize + d.offset + d.size) → data'[place]? = data[place]?) ∧
      data'.length = data.length) ∧
    (∀ fault data', (l.write id index value).made data = (.error fault, data') → data' = data) ∧
    l.grow.made data = (.error .appendUnsupported, data) ∧
    ∀ id' index' value', (id', index') ≠ (id, index) →
      (∀ data', InPlace.made (do l.write id index value; l.write id' index' value') data =
          (.ok (), data') →
        InPlace.made (do l.write id' index' value'; l.write id index value) data =
          (.ok (), data')) ∧
      (((l.write id index value).made data).1 = .ok () →
        ((l.write id' index' value').made data).1 = .ok () →
        ∃ data', InPlace.made (do l.write id index value; l.write id' index' value') data =
          (.ok (), data')) := by
  intro l
  have hl : l.Laid := laid_after calls
  refine ⟨made_write l id index value data, fun data' hwrite => ?_,
    fun fault data' hwrite => made_write_error hwrite, by simp [grow, PointTable.addPoint],
    fun id' index' value' hne => ⟨fun data' hwrites => ?_, fun hfirst hsecond => ?_⟩⟩
  · obtain ⟨start, hrange, rfl⟩ := made_write_ok_iff.1 hwrite
    have hfits := PointTable.within_buffer hl hrange
    refine ⟨PointTable.field_of_overwrite hl hrange,
      fun id' index' hne => PointTable.field_overwrite_of_ne hl hrange hne, ?_,
      PointTable.length_overwrite hfits⟩
    obtain ⟨-, d, hd, rfl, hsize⟩ := PointTable.fieldRange_eq_ok_iff.1 hrange
    refine ⟨d, hd, fun place hout => ?_⟩
    rw [PointTable.getElem?_overwrite hfits, hsize, if_neg hout]
  · obtain ⟨start, start', hrange, hrange'⟩ := exists_ranges_of_writes hl hwrites
    rw [made_writes_comm hl hne hrange hrange', hwrites]
  · obtain ⟨start, hrange, -⟩ := made_write_ok_iff.1 (Prod.ext hfirst rfl)
    obtain ⟨start', hrange', -⟩ := made_write_ok_iff.1 (Prod.ext hsecond rfl)
    exact ⟨_, made_writes hl hrange hrange'⟩

/-- Two points and two bytes behind them. One value is replaced in the second point, and there is no
third point to write to. -/
theorem memory_laws_with_bytes_behind :
    let calls : List Call :=
      [.register "X" .unsigned16, .register "Flags" .none, .register "Class" .unsigned8]
    let data : List UInt8 := [1, 0, 2, 3, 0, 4, 7, 7]
    let data' : List UInt8 := [1, 0, 2, 3, 0, 9, 7, 7]
    let l := empty.after calls
    (l.write 2 1 [9]).made data = (.ok (), data') ∧
      PointTable.field ⟨l, data'⟩ 2 1 = .ok [9] ∧
      PointTable.field ⟨l, data'⟩ 0 1 = PointTable.field ⟨l, data⟩ 0 1 ∧
      (l.write 2 2 [9]).made data = (.error (.pointOutOfRange 2 2), data) := by
  intro calls data data' l
  have hsize : PointTable.size ⟨l, data⟩ = 2 := by decide
  have hrange : PointTable.fieldRange ⟨l, data⟩ 2 1 = .ok (5, 1) :=
    PointTable.fieldRange_eq_ok_iff.2 ⟨by decide, ⟨2, "Class", .unsigned8, 2⟩, rfl, rfl, rfl⟩
  have hbeyond : PointTable.fieldRange ⟨l, data⟩ 2 2 = .error (.pointOutOfRange 2 2) := by
    rw [PointTable.fieldRange, PointTable.pointStart, hsize]
    rfl
  have hwrite : (l.write 2 1 [9]).made data = (.ok (), data') :=
    made_write_ok_iff.2 ⟨5, hrange, rfl⟩
  obtain ⟨-, hwritten, -, -, -⟩ := memory_laws calls data 2 1 [9]
  obtain ⟨hread, hothers, -, -⟩ := hwritten data' hwrite
  exact ⟨hwrite, hread, hothers 0 1 (by decide),
    by rw [made_write, PointTable.setField_of_fault hbeyond]⟩

end Layout

end PointTiles
