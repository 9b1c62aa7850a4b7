import PointTiles.Proofs.Table.Ranges

/-! # Viewing packed points

Points are packed by writing their values one behind the other, each in as many bytes as its
dimension has. A table over packed points shows the points and the values they were packed from, and
the points it shows, one behind the other, are the buffer up to its last whole point.

* `drop_flatten`, `flatten_slices`: where the members of a concatenation lie, and a concatenation of
  slices of one width.
* `PointTable.size_packed`, `point_packed`, `field_packed`: a table over packed points.
* `PointTable.mapM_point`: the points of any table.
* `PointTable.viewing_undoes_packing`: all of it together.
-/

namespace PointTiles
set_option autoImplicit false

-- Sums of numbers begin at the zero of the core library, whatever else is imported.
attribute [local instance (high)] Zero.ofOfNat0

variable {β : Type}

/-! ## Concatenations -/

/-- A member of a concatenation lies behind all members before it. -/
theorem drop_flatten {chunks : List (List β)} {k : Nat} {chunk : List β}
    (h : chunks[k]? = some chunk) (rest : List β) :
    ∃ rest', (chunks.flatten ++ rest).drop ((chunks.map List.length).take k).sum =
      chunk ++ rest' := by
  obtain ⟨before, after, rfl, rfl⟩ := Places.exists_split h
  refine ⟨after.flatten ++ rest, ?_⟩
  rw [← List.map_take, List.take_left' rfl, ← List.length_flatten, List.flatten_append,
    List.append_assoc, List.drop_left' rfl, List.flatten_cons, List.append_assoc]

theorem flatten_slices (data : List β) (width n : Nat) :
    ((List.range n).map fun i => (data.drop (i * width)).take width).flatten =
      data.take (n * width) := by
  induction n with
  | zero => simp
  | succ n ih =>
    rw [List.range_succ, List.map_append, List.flatten_append, ih, List.map_singleton,
      List.flatten_singleton, ← List.take_add, Nat.succ_mul]

namespace PointTable

variable {l : Layout} {points : List (List (List UInt8))} {tail : List UInt8}

/-! ## Packed points -/

/-- The values of a point have the sizes of the dimensions, in their order. -/
def Fits (l : Layout) (point : List (List UInt8)) : Prop :=
  point.map List.length = l.dimensions.map Dimension.size

/-- The table over points that are packed, with more bytes behind them. -/
def packed (l : Layout) (points : List (List (List UInt8))) (tail : List UInt8) : PointTable :=
  ⟨l, points.flatten.flatten ++ tail⟩

theorem Fits.length_flatten {point : List (List UInt8)} (hl : l.Laid) (h : Fits l point) :
    point.flatten.length = l.pointSize := by
  rw [List.length_flatten, h, hl.total]

theorem map_length_points (hl : l.Laid) (hfit : ∀ point ∈ points, Fits l point) :
    (points.map List.flatten).map List.length = List.replicate points.length l.pointSize := by
  rw [List.map_map, List.eq_replicate_iff]
  refine ⟨List.length_map _, fun n hn => ?_⟩
  obtain ⟨point, hpoint, rfl⟩ := List.mem_map.1 hn
  exact (hfit point hpoint).length_flatten hl

theorem length_packed (hl : l.Laid) (hfit : ∀ point ∈ points, Fits l point) :
    (packed l points tail).data.length = l.pointSize * points.length + tail.length := by
  rw [packed, List.length_append, List.flatten_flatten, List.length_flatten,
    map_length_points hl hfit, List.sum_replicate_nat, Nat.mul_comm]

theorem size_packed (hl : l.Laid) (hfit : ∀ point ∈ points, Fits l point)
    (htail : tail.length < l.pointSize) : (packed l points tail).size = points.length := by
  have hpos : 0 < l.pointSize := Nat.zero_lt_of_lt htail
  have hlayout : (packed l points tail).layout = l := rfl
  rw [size, hlayout, if_neg (Nat.ne_of_gt hpos), length_packed hl hfit, Nat.mul_add_div hpos,
    Nat.div_eq_of_lt htail, Nat.add_zero]

theorem drop_packed {index : Nat} {point : List (List UInt8)} (hl : l.Laid)
    (hfit : ∀ point ∈ points, Fits l point) (hpoint : points[index]? = some point)
    (tail : List UInt8) :
    ∃ rest, (packed l points tail).data.drop (index * l.pointSize) = point.flatten ++ rest := by
  have hindex : index < points.length := (List.getElem?_eq_some_iff.1 hpoint).1
  have hchunk : (points.map List.flatten)[index]? = some point.flatten := by
    rw [List.getElem?_map, hpoint]
    rfl
  obtain ⟨rest, hrest⟩ := drop_flatten hchunk tail
  rw [map_length_points hl hfit, List.take_replicate, Nat.min_eq_left (Nat.le_of_lt hindex),
    List.sum_replicate_nat, ← List.flatten_flatten] at hrest
  exact ⟨rest, hrest⟩

theorem point_packed {index : Nat} {point : List (List UInt8)} (hl : l.Laid)
    (hfit : ∀ point ∈ points, Fits l point) (htail : tail.length < l.pointSize)
    (hpoint : points[index]? = some point) :
    (packed l points tail).point index = .ok point.flatten := by
  have hindex : index < (packed l points tail).size := by
    rw [size_packed hl hfit htail]
    exact (List.getElem?_eq_some_iff.1 hpoint).1
  have hlength := (hfit point (List.mem_of_getElem? hpoint)).length_flatten hl
  have hlayout : (packed l points tail).layout = l := rfl
  obtain ⟨rest, hrest⟩ := drop_packed hl hfit hpoint tail
  rw [point_of_lt hindex, slice, hlayout, hrest, List.take_left' hlength]

/-- The dimension of a value of a point that fits. -/
theorem Fits.exists_dimension {id : Nat} {value : List UInt8} {point : List (List UInt8)}
    (h : Fits l point) (hvalue : point[id]? = some value) :
    ∃ d, l.dimension? id = some d ∧ d.size = value.length := by
  have hsize : (l.dimensions.map Dimension.size)[id]? = some value.length := by
    rw [← h, List.getElem?_map, hvalue]
    rfl
  rw [List.getElem?_map] at hsize
  exact Option.map_eq_some_iff.1 hsize

theorem field_packed {id index : Nat} {value : List UInt8} {point : List (List UInt8)}
    (hl : l.Laid) (hfit : ∀ point ∈ points, Fits l point) (htail : tail.length < l.pointSize)
    (hpoint : points[index]? = some point) (hvalue : point[id]? = some value) :
    (packed l points tail).field id index = .ok value := by
  have hpointFits := hfit point (List.mem_of_getElem? hpoint)
  have hindex : index < (packed l points tail).size := by
    rw [size_packed hl hfit htail]
    exact (List.getElem?_eq_some_iff.1 hpoint).1
  obtain ⟨d, hd, hsize⟩ := hpointFits.exists_dimension hvalue
  have hrange : (packed l points tail).fieldRange id index =
      .ok (index * l.pointSize + d.offset, d.size) :=
    fieldRange_eq_ok_iff.2 ⟨hindex, d, hd, rfl, rfl⟩
  -- Behind the points before this one lies the point, and behind its values before this one, the value.
  obtain ⟨rest, hrest⟩ := drop_packed hl hfit hpoint tail
  obtain ⟨rest', hrest'⟩ := drop_flatten hvalue rest
  rw [hpointFits, ← hl.offset_eq hd] at hrest'
  rw [field_eq_map, hrange, Except.map, slice, ← List.drop_drop, hrest, hrest', hsize,
    List.take_left' rfl]

/-! ## The points of a table -/

theorem mapM_point (t : PointTable) :
    (List.range t.size).mapM t.point = .ok ((List.range t.size).map fun index =>
      t.slice (index * t.layout.pointSize) t.layout.pointSize) :=
  Places.mapM_eq_ok (fun _ hindex => point_of_lt (List.mem_range.1 hindex))

/-- What is left of a buffer behind its last whole point is no whole point. -/
theorem length_drop_lt (t : PointTable) (hpos : 0 < t.layout.pointSize) :
    (t.data.drop (t.size * t.layout.pointSize)).length < t.layout.pointSize := by
  rw [List.length_drop, size, if_neg (Nat.ne_of_gt hpos), ← Nat.mod_eq_sub_div_mul]
  exact Nat.mod_lt _ hpos

/-- Under a layout made by any calls, in which a point has bytes. A table over points that are packed
one behind the other, with less than a point behind them, has as many points; each of them is read as
its values in a row, and each value as it was packed. And whatever a buffer holds, its points in a
row are the buffer without a rest that is less than a point. -/
theorem viewing_undoes_packing (calls : List Layout.Call)
    (hpos : 0 < (Layout.empty.after calls).pointSize) :
    let l := Layout.empty.after calls
    (∀ (points : List (List (List UInt8))) (tail : List UInt8),
      (∀ point ∈ points, point.map List.length = l.dimensions.map Dimension.size) →
      tail.length < l.pointSize →
      let t : PointTable := ⟨l, points.flatten.flatten ++ tail⟩
      t.size = points.length ∧
      ∀ (index : Nat) point, points[index]? = some point → t.point index = .ok point.flatten ∧
        ∀ (id : Nat) value, point[id]? = some value → t.field id index = .ok value) ∧
    ∀ data : List UInt8,
      let t : PointTable := ⟨l, data⟩
      ∃ points tail, (List.range t.size).mapM t.point = .ok points ∧
        data = points.flatten ++ tail ∧ tail.length < l.pointSize := by
  intro l
  have hl : l.Laid := Layout.laid_after calls
  refine ⟨fun points tail hfit htail => ⟨size_packed hl hfit htail, fun index point hpoint =>
    ⟨point_packed hl hfit htail hpoint, fun id value hvalue =>
      field_packed hl hfit htail hpoint hvalue⟩⟩, fun data => ?_⟩
  intro t
  refine ⟨_, data.drop (t.size * l.pointSize), t.mapM_point, ?_, t.length_drop_lt hpos⟩
  have hpoints := flatten_slices data l.pointSize t.size
  exact ((congrArg (· ++ _) hpoints).trans (List.take_append_drop _ _)).symm

/-- Two points of three values, the second of them without bytes, and two bytes behind them. -/
theorem viewing_undoes_packing_two_points :
    let calls : List Layout.Call :=
      [.register "X" .unsigned16, .register "Flags" .none, .register "Class" .unsigned8]
    let l := Layout.empty.after calls
    let t : PointTable := ⟨l, [1, 0, 2, 3, 0, 4, 7, 7]⟩
    0 < l.pointSize ∧ t.size = 2 ∧ t.point 1 = .ok [3, 0, 4] ∧ t.field 0 1 = .ok [3, 0] ∧
      t.field 1 1 = .ok [] ∧ t.field 2 1 = .ok [4] := by
  intro calls l t
  have hpos : 0 < l.pointSize := by decide
  let points : List (List (List UInt8)) := [[[1, 0], [], [2]], [[3, 0], [], [4]]]
  have hfit : ∀ point ∈ points, point.map List.length = l.dimensions.map Dimension.size := by decide
  obtain ⟨hsize, hpoints⟩ := (viewing_undoes_packing calls hpos).1 points [7, 7] hfit (by decide)
  obtain ⟨hpoint, hvalues⟩ := hpoints 1 [[3, 0], [], [4]] rfl
  exact ⟨hpos, hsize, hpoint, hvalues 0 [3, 0] rfl, hvalues 1 [] rfl, hvalues 2 [4] rfl⟩

end PointTable

end PointTiles
