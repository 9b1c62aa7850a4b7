import PointTiles.PointTable.Words
import PointTiles.Proofs.Table.Writing

/-! # Access inside the bounds

Access to a table fails where it should and nowhere else, and a machine with a greatest number does
not stop on the way, however great the number of the point.

* `Layout.answered_iff`: a number has a dimension when a call to register answered it.
* `Laid.pointSize_le`: a dimension takes eight bytes at most.
* `PointTable.fieldRangeInWords_eq`, `fieldInWords_eq`, `setFieldInWords_eq`: access on such a machine
  is access.
* `PointTable.field_eq_error_iff`, `setField_eq_error_iff`: the faults, the first one counts.
* `PointTable.access_in_bounds`: all of it together.
-/

namespace PointTiles
set_option autoImplicit false

-- Sums and powers of numbers are those of the core library, whatever else is imported.
attribute [local instance (high)] Zero.ofOfNat0 instPowNat

/-! ## Numbers of dimensions -/

theorem StorageType.size_le (type : StorageType) : type.size ≤ 8 := by
  cases type <;> decide

namespace Layout

variable {l : Layout} {id : Nat} {name : String} {d : Dimension}

theorem sum_size_le (dimensions : List Dimension) :
    (dimensions.map Dimension.size).sum ≤ 8 * dimensions.length := by
  induction dimensions with
  | nil => simp
  | cons d dimensions ih =>
    have hsize : d.size ≤ 8 := d.type.size_le
    rw [List.map_cons, List.sum_cons, List.length_cons]
    omega

theorem Laid.pointSize_le (hl : l.Laid) : l.pointSize ≤ 8 * l.dimensions.length := by
  rw [hl.total]
  exact sum_size_le l.dimensions

/-- A name is that of one dimension only, so this one is found. -/
theorem find?_of_dimension (hdistinct : l.names.Nodup) (hd : d ∈ l.dimensions) :
    l.dimensions.find? (fun d' => d'.name = d.name) = some d := by
  obtain ⟨found, hfound⟩ := Option.isSome_iff_exists.1
    (List.find?_isSome (p := fun d' => decide (d'.name = d.name)) |>.2 ⟨d, hd, by simp⟩)
  have hname : found.name = d.name := by simpa using List.find?_some hfound
  rw [hfound, List.inj_on_of_nodup_map hdistinct (List.mem_of_find?_eq_some hfound) hd hname]

/-- The number under which a name is found is not beyond the last place: numbers that do not fit their
words begin again from zero. -/
theorem Laid.exists_dimension (hl : l.Laid) (hfind : l.find? name = some id) :
    ∃ d, l.dimension? id = some d := by
  obtain ⟨d, hd, rfl⟩ := Option.map_eq_some_iff.1 hfind
  obtain ⟨k, hk⟩ := List.getElem?_of_mem (List.mem_of_find?_eq_some hd)
  have hplace : k < l.dimensions.length := (List.getElem?_eq_some_iff.1 hk).1
  have hword : d.id ≤ k := by
    rw [hl.number k d hk, UInt32.toNat_ofNat']
    exact Nat.mod_le _ _
  exact ⟨_, List.getElem?_eq_getElem (Nat.lt_of_le_of_lt hword hplace)⟩

/-- One of the calls registers a name, and answers the number. -/
def Answered (calls : List Call) (id : Nat) : Prop :=
  ∃ before name type later, calls = before ++ .register name type :: later ∧
    ((empty.after before).perform (.register name type)).1 = .ok (some id)

theorem answered_iff {calls : List Call} (hid : id < 2 ^ (32 : Nat)) :
    Answered calls id ↔ ∃ d, (empty.after calls).dimension? id = some d := by
  have hl := laid_after calls
  constructor
  · rintro ⟨before, name, type, later, rfl, hanswer⟩
    have hperformed := performed_perform (empty.after before) (.register name type)
    rw [hanswer] at hperformed
    rw [after_append, after] at hl ⊢
    have hstays := find?_of_prefix (dimensions_prefix_after _ later) hperformed.find?_of_ok
    exact hl.exists_dimension hstays
  · rintro ⟨d, hd⟩
    have hnumber : d.id = id := by
      rw [hl.number id d hd]
      exact UInt32.toNat_ofNat_of_lt' hid
    have hfind : (empty.after calls).find? d.name = some id := by
      rw [find?, find?_of_dimension hl.distinct (List.mem_of_getElem? hd), Option.map_some, hnumber]
    obtain ⟨before, type, later, hcalls, -, hanswer⟩ := find?_after_iff.1 hfind
    exact ⟨before, d.name, type, later, hcalls, hanswer⟩

end Layout

/-! ## Operations that do not stop -/

namespace Size

variable {top a b : Nat}

theorem add?_of_le (h : a + b ≤ top) : add? top a b = some (a + b) := if_pos h

theorem mul?_of_le (h : a * b ≤ top) : mul? top a b = some (a * b) := if_pos h

end Size

namespace Buffer

variable {data value : List UInt8} {start length : Nat}

theorem slice?_of_le (h : start + length ≤ data.length) :
    slice? data start (start + length) = some ((data.drop start).take length) := by
  rw [slice?, if_pos ⟨Nat.le_add_right _ _, h⟩, Nat.add_sub_cancel_left]

theorem copy?_of_le (h : start + value.length ≤ data.length) :
    copy? data start (start + value.length) value =
      some (PointTable.overwrite data start value) := by
  have hlength : ((data.drop start).take value.length).length = value.length := by
    rw [List.length_take_of_le]
    rw [List.length_drop]
    omega
  rw [copy?, slice?_of_le h]
  exact if_pos hlength

end Buffer

namespace PointTable

variable {t : PointTable} {top id index start length : Nat} {value : List UInt8} {fault : Fault}

/-! ## Access on words -/

theorem sizeInWords_eq (t : PointTable) : t.sizeInWords = some t.size := by
  rw [sizeInWords, size]
  split
  · rfl
  next hpos => exact if_neg hpos

theorem pointStartInWords_eq (hdata : t.data.length ≤ top) (index : Nat) :
    (t.pointStartInWords top index).run = some (t.pointStart index) := by
  rw [pointStartInWords, sizeInWords_eq, InWords.run_bind_of_ok (InWords.run_lift _), pointStart]
  by_cases hindex : index < t.size
  · have hend := point_within_buffer hindex
    have hfits : index * t.layout.pointSize ≤ top := by
      rw [Nat.succ_mul] at hend
      omega
    rw [if_neg (Nat.not_le.2 hindex), if_pos hindex, Size.mul?_of_le hfits]
    rfl
  · rw [if_pos (Nat.not_lt.1 hindex), if_neg hindex]
    rfl

theorem pointInWords_eq (hdata : t.data.length ≤ top) (index : Nat) :
    (t.pointInWords top index).run = some (t.point index) := by
  have hrun := pointStartInWords_eq hdata index
  rw [pointInWords, point]
  by_cases hindex : index < t.size
  · have hstart : t.pointStart index = .ok (index * t.layout.pointSize) := if_pos hindex
    have hend := point_within_buffer hindex
    rw [Nat.succ_mul] at hend
    rw [hstart] at hrun ⊢
    rw [InWords.run_bind_of_ok hrun, Size.add?_of_le (Nat.le_trans hend hdata),
      InWords.run_bind_of_ok (InWords.run_lift _), Buffer.slice?_of_le hend]
    rfl
  · have hstart : t.pointStart index = .error (.pointOutOfRange index t.size) := if_neg hindex
    rw [hstart] at hrun ⊢
    exact InWords.run_bind_of_error hrun _

theorem fieldRange_of_dimension {d : Dimension} (hd : t.layout.dimension? id = some d)
    (hindex : index < t.size) :
    t.fieldRange id index = .ok (index * t.layout.pointSize + d.offset, d.size) :=
  fieldRange_eq_ok_iff.2 ⟨hindex, d, hd, rfl, rfl⟩

theorem fieldRangeInWords_eq (hl : t.layout.Laid) (hdata : t.data.length ≤ top) (id index : Nat) :
    (t.fieldRangeInWords top id index).run = some (t.fieldRange id index) := by
  have hrun := pointStartInWords_eq hdata index
  cases hd : t.layout.dimension? id with
  | none =>
    simp only [fieldRangeInWords, fieldRange, hd]
    rfl
  | some d =>
    simp only [fieldRangeInWords, fieldRange, hd]
    by_cases hindex : index < t.size
    · have hstart : t.pointStart index = .ok (index * t.layout.pointSize) := if_pos hindex
      have hend := within_buffer hl (fieldRange_of_dimension hd hindex)
      rw [hstart] at hrun ⊢
      rw [InWords.run_bind_of_ok hrun, Size.add?_of_le (by omega)]
      rfl
    · have hstart : t.pointStart index = .error (.pointOutOfRange index t.size) := if_neg hindex
      rw [hstart] at hrun ⊢
      exact InWords.run_bind_of_error hrun _

theorem fieldInWords_eq (hl : t.layout.Laid) (hdata : t.data.length ≤ top) (id index : Nat) :
    (t.fieldInWords top id index).run = some (t.field id index) := by
  have hrun := fieldRangeInWords_eq hl hdata id index
  rw [fieldInWords, field_eq_map]
  cases hrange : t.fieldRange id index with
  | error fault =>
    rw [hrange] at hrun
    exact InWords.run_bind_of_error hrun _
  | ok range =>
    obtain ⟨start, size⟩ := range
    have hend := within_buffer hl hrange
    rw [hrange] at hrun
    rw [InWords.run_bind_of_ok hrun]
    dsimp only
    rw [Size.add?_of_le (Nat.le_trans hend hdata), InWords.run_bind_of_ok (InWords.run_lift _),
      Buffer.slice?_of_le hend]
    rfl

theorem setFieldInWords_eq (hl : t.layout.Laid) (hdata : t.data.length ≤ top) (id index : Nat)
    (value : List UInt8) :
    (t.setFieldInWords top id index value).run = some (t.setField id index value) := by
  have hrun := fieldRangeInWords_eq hl hdata id index
  rw [setFieldInWords]
  cases hrange : t.fieldRange id index with
  | error fault =>
    rw [hrange] at hrun
    rw [setField_of_fault hrange]
    exact InWords.run_bind_of_error hrun _
  | ok range =>
    obtain ⟨start, size⟩ := range
    have hend := within_buffer hl hrange
    rw [hrange] at hrun
    rw [setField_of_range hrange, InWords.run_bind_of_ok hrun]
    by_cases hsize : value.length = size
    · subst hsize
      simp only [ne_eq, not_true_eq_false, if_false, if_true]
      rw [Size.add?_of_le (Nat.le_trans hend hdata), InWords.run_bind_of_ok (InWords.run_lift _),
        Buffer.copy?_of_le hend]
      rfl
    · simp only [ne_eq, hsize, not_false_eq_true, if_true, if_false]
      exact InWords.run_bind_of_error (InWords.run_throw _) _

/-! ## Faults -/

/-- Where a point is: a whole one has to fit into the buffer. -/
theorem lt_size_iff {t : PointTable} {index : Nat} :
    index < t.size ↔ 0 < t.layout.pointSize ∧ (index + 1) * t.layout.pointSize ≤ t.data.length := by
  rw [size]
  by_cases hzero : t.layout.pointSize = 0
  · simp [hzero]
  · have hpos : 0 < t.layout.pointSize := Nat.pos_of_ne_zero hzero
    rw [if_neg hzero, and_iff_right hpos, ← Nat.succ_le_iff, Nat.le_div_iff_mul_le hpos]

/-- What is wrong with the place of a value: its dimension, or else its point. -/
def FaultAt (t : PointTable) (id index : Nat) (fault : Fault) : Prop :=
  t.layout.dimension? id = none ∧ fault = .unknownDimension id ∨
    (∃ d, t.layout.dimension? id = some d) ∧ t.size ≤ index ∧ fault = .pointOutOfRange index t.size

theorem point_eq_error_iff :
    t.point index = .error fault ↔ t.size ≤ index ∧ fault = .pointOutOfRange index t.size := by
  by_cases hindex : index < t.size
  · simp [point_of_lt hindex, Nat.not_le.2 hindex]
  · rw [point, pointStart, if_neg hindex]
    change Except.error _ = Except.error _ ↔ _
    simp [Nat.not_lt.1 hindex, eq_comm]

theorem fieldRange_eq_error_iff :
    t.fieldRange id index = .error fault ↔ t.FaultAt id index fault := by
  rw [fieldRange, pointStart, FaultAt]
  cases t.layout.dimension? id with
  | none => simp [eq_comm]
  | some d =>
    by_cases hindex : index < t.size
    · rw [if_pos hindex]
      change Except.ok _ = Except.error _ ↔ _
      simp [Nat.not_le.2 hindex]
    · rw [if_neg hindex]
      change Except.error _ = Except.error _ ↔ _
      simp [Nat.not_lt.1 hindex, eq_comm]

theorem field_eq_error_iff : t.field id index = .error fault ↔ t.FaultAt id index fault := by
  rw [← fieldRange_eq_error_iff, field_eq_map]
  cases t.fieldRange id index <;> simp [Except.map]

theorem setField_eq_error_iff :
    t.setField id index value = .error fault ↔ t.FaultAt id index fault ∨
      ∃ d, t.layout.dimension? id = some d ∧ index < t.size ∧ value.length ≠ d.size ∧
        fault = .fieldSize d.size value.length := by
  rw [← fieldRange_eq_error_iff]
  cases hrange : t.fieldRange id index with
  | error found =>
    have hnone : ∀ d, t.layout.dimension? id = some d → ¬ index < t.size := by
      intro d hd hindex
      rw [fieldRange_of_dimension hd hindex] at hrange
      cases hrange
    rw [setField_of_fault hrange, Except.error.injEq, Except.error.injEq]
    constructor
    · exact .inl
    · rintro (hfault | ⟨d, hd, hindex, -⟩)
      · exact hfault
      · exact absurd hindex (hnone d hd)
  | ok range =>
    obtain ⟨start, size⟩ := range
    obtain ⟨hindex, d, hd, -, rfl⟩ := fieldRange_eq_ok_iff.1 hrange
    rw [setField_of_range hrange]
    by_cases hsize : value.length = d.size
    · simp [hd, hsize]
    · simp [hd, hsize, hindex, eq_comm]

theorem length_slice (h : start + length ≤ t.data.length) :
    (t.slice start length).length = length := by
  rw [slice, List.length_take_of_le]
  rw [List.length_drop]
  omega

theorem exists_point (hindex : index < t.size) :
    ∃ bytes, t.point index = .ok bytes ∧ bytes.length = t.layout.pointSize := by
  have hend := point_within_buffer hindex
  rw [Nat.succ_mul] at hend
  exact ⟨_, point_of_lt hindex, length_slice hend⟩

theorem exists_field {d : Dimension} (hl : t.layout.Laid) (hd : t.layout.dimension? id = some d)
    (hindex : index < t.size) : ∃ bytes, t.field id index = .ok bytes ∧ bytes.length = d.size := by
  have hrange := fieldRange_of_dimension hd hindex
  refine ⟨_, ?_, length_slice (within_buffer hl hrange)⟩
  rw [field_eq_map, hrange, Except.map]

theorem exists_setField {d : Dimension} (hd : t.layout.dimension? id = some d)
    (hindex : index < t.size) (hvalue : value.length = d.size) :
    ∃ t', t.setField id index value = .ok t' :=
  ⟨_, setField_eq_ok_iff.2 ⟨_, fieldRange_eq_ok_iff.2 ⟨hindex, d, hd, rfl, hvalue⟩, rfl⟩⟩

/-! ## All access -/

/-- Access to a buffer under a layout made by any calls, on a machine whose numbers reach to the
length of the buffer. The machine does not stop, and a point takes at most eight bytes for each
dimension, so that the sums that registering makes stay as small as the dimensions are few.

There is a point where a whole one fits into the buffer, and a number has a dimension where a call to
register answered it. Reading a point fails exactly where there is none. Reading a value fails for a
number without a dimension, and otherwise where there is no point; writing one does so too, and
otherwise where the bytes are not as many as the dimension takes. All else succeeds, and what is read
has the size of a point or of the dimension. -/
theorem access_in_bounds (calls : List Layout.Call) (data value : List UInt8) {top : Nat}
    (hdata : data.length ≤ top) (id : UInt32) (index : Nat) :
    let l := Layout.empty.after calls
    let t : PointTable := ⟨l, data⟩
    let n := id.toNat
    (l.pointSize ≤ 8 * l.dimensions.length ∧
      (t.pointInWords top index).run = some (t.point index) ∧
      (t.fieldInWords top n index).run = some (t.field n index) ∧
      (t.setFieldInWords top n index value).run = some (t.setField n index value)) ∧
    (index < t.size ↔ 0 < l.pointSize ∧ (index + 1) * l.pointSize ≤ data.length) ∧
    ((∃ d, l.dimension? n = some d) ↔ Layout.Answered calls n) ∧
    (∀ fault, t.point index = .error fault ↔
      t.size ≤ index ∧ fault = .pointOutOfRange index t.size) ∧
    (∀ fault, t.field n index = .error fault ↔ t.FaultAt n index fault) ∧
    (∀ fault, t.setField n index value = .error fault ↔ t.FaultAt n index fault ∨
      ∃ d, l.dimension? n = some d ∧ index < t.size ∧ value.length ≠ d.size ∧
        fault = .fieldSize d.size value.length) ∧
    (index < t.size → ∃ bytes, t.point index = .ok bytes ∧ bytes.length = l.pointSize) ∧
    ∀ d, l.dimension? n = some d → index < t.size →
      (∃ bytes, t.field n index = .ok bytes ∧ bytes.length = d.size) ∧
      (value.length = d.size → ∃ t', t.setField n index value = .ok t') := by
  intro l t n
  have hl : l.Laid := Layout.laid_after calls
  refine ⟨⟨hl.pointSize_le, pointInWords_eq hdata index, fieldInWords_eq hl hdata n index,
      setFieldInWords_eq hl hdata n index value⟩,
    lt_size_iff, (Layout.answered_iff id.toNat_lt).symm, fun fault => point_eq_error_iff,
    fun fault => field_eq_error_iff, fun fault => setField_eq_error_iff, exists_point, ?_⟩
  intro d hd hindex
  exact ⟨exists_field hl hd hindex, exists_setField hd hindex⟩

/-- Two points, one byte behind them, and a dimension without bytes. The greatest number of all is
that of no point, a write has to have the right size, and an unknown dimension is told before a
missing point. -/
theorem access_in_bounds_up_to_greatest_number :
    let calls : List Layout.Call := [.register "X" .unsigned16, .register "Flags" .none]
    let data : List UInt8 := [1, 0, 2, 0, 7]
    let t : PointTable := ⟨Layout.empty.after calls, data⟩
    let top : Nat := 2 ^ (64 : Nat) - 1
    data.length ≤ top ∧ (t.fieldInWords top 1 1).run = some (.ok []) ∧
      (t.pointInWords top top).run = some (.error (.pointOutOfRange top 2)) ∧
      (t.setFieldInWords top 0 1 [9]).run = some (.error (.fieldSize 2 1)) ∧
      (t.fieldInWords top 2 top).run = some (.error (.unknownDimension 2)) := by
  intro calls data t top
  have hdata : data.length ≤ top := by decide
  have hsize : t.size = 2 := by decide
  have hX : t.layout.dimension? 0 = some ⟨0, "X", .unsigned16, 0⟩ := rfl
  obtain ⟨⟨-, hpoint, -, -⟩, -, -, hfault, -⟩ := access_in_bounds calls data [] hdata 0 top
  obtain ⟨⟨-, -, -, hset⟩, -, -, -, -, hfaults, -⟩ := access_in_bounds calls data [9] hdata 0 1
  obtain ⟨⟨-, -, hflags, -⟩, -, -, -, -, -, -, hread⟩ := access_in_bounds calls data [] hdata 1 1
  obtain ⟨⟨-, -, hfield, -⟩, -, -, -, hunknown, -⟩ := access_in_bounds calls data [] hdata 2 top
  refine ⟨hdata, ?_, ?_, ?_, ?_⟩
  · obtain ⟨bytes, hbytes, hlength⟩ :=
      (hread ⟨1, "Flags", .none, 2⟩ rfl (Nat.lt_of_lt_of_eq (by decide) hsize.symm)).1
    rw [List.length_eq_zero_iff.1 hlength] at hbytes
    exact hflags.trans (congrArg some hbytes)
  · have hbeyond : t.point top = .error (.pointOutOfRange top 2) :=
      (hfault _).2 ⟨by decide, by rw [← hsize]⟩
    exact hpoint.trans (congrArg some hbeyond)
  · have hshort : t.setField 0 1 [9] = .error (.fieldSize 2 1) :=
      (hfaults _).2 (.inr ⟨_, hX, by decide, by decide, rfl⟩)
    exact hset.trans (congrArg some hshort)
  · have hnone : t.field 2 top = .error (.unknownDimension 2) := (hunknown _).2 (.inl ⟨rfl, rfl⟩)
    exact hfield.trans (congrArg some hnone)

end PointTable

end PointTiles
