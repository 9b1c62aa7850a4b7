import PointTiles.Proofs.Selection
import PointTiles.Proofs.Tiling

/-! # What pruning leaves out

A selection does not look below a node outside of the region asked for, nor below one at the depth
limit. In exact coordinates nothing is lost by that: the nodes below lie inside of that node, and
are deeper.

* `Box.overlaps_of_within`: a box that reaches around another is in touch with what that is in touch
  with, though that need not be an ordered box.
* `Key.overlaps_of_along`: what touches a node touches all those above it.
* `meets_eq_false_of_apart`, `meets_eq_false_of_closed`: what is not looked at.
* `visit_eq_filter`: the selection from a node down, by the levels below it.
* `select_eq_filter`: a selection is the selection of everything, filtered.
-/

namespace PointTiles
set_option autoImplicit false

/-! ## Boxes inside of boxes -/

namespace Box

variable {region inner outer : Box Rat}

theorem overlaps_iff : region.overlaps outer = true ↔
    ∀ axis, (region.on axis).lo ≤ (outer.on axis).hi ∧
      (outer.on axis).lo ≤ (region.on axis).hi := by
  simp only [overlaps, Vec.all_eq_true, Vec.on_zipWith, id_eq, Span.overlaps, Bool.and_eq_true,
    Coordinate.le_iff]

theorem overlaps_of_within
    (hwithin : ∀ axis, (outer.on axis).lo ≤ (inner.on axis).lo ∧
      (inner.on axis).hi ≤ (outer.on axis).hi)
    (h : region.overlaps inner = true) : region.overlaps outer = true := by
  rw [overlaps_iff] at h ⊢
  intro axis
  obtain ⟨hlo, hhi⟩ := hwithin axis
  obtain ⟨hbelow, habove⟩ := h axis
  exact ⟨hbelow.trans hhi, hlo.trans habove⟩

end Box

namespace Key

theorem overlaps_of_along {region : Box Rat} {key : Key Rat} (hordered : key.bounds.ordered = true)
    (path : List Octant) (h : region.overlaps (key.along path).bounds = true) :
    region.overlaps key.bounds = true := by
  refine Box.overlaps_of_within (fun axis => ?_) h
  obtain ⟨hlo, -, hhi⟩ := along_within key path axis (Box.ordered_iff.1 hordered axis)
  exact ⟨hlo, hhi⟩

theorem ordered_octant {key : Key Rat} (hordered : key.bounds.ordered = true) (o : Octant) :
    (key.octant o).bounds.ordered = true := by
  refine Box.ordered_iff.2 (fun axis => ?_)
  exact (along_within key [o] axis (Box.ordered_iff.1 hordered axis)).2.1

end Key

/-! ## Filters -/

namespace Query

/-- The node is in touch with the region asked for, and not too deep. -/
def meets (query : Query Rat) (key : Key Rat) : Bool :=
  query.region.all (fun region => region.overlaps key.bounds) &&
    query.depthLimit.all (fun limit => key.address.depth ≤ limit)

/-- Everything with points. -/
def everything : Query Rat := ⟨none, none⟩

end Query

namespace Hierarchy

variable {h : Hierarchy Rat} {query : Query Rat} {levels : Nat} {key : Key Rat}

theorem admits_eq_and (h : Hierarchy Rat) (query : Query Rat) (key : Key Rat) :
    h.admits query key = (h.admits .everything key &&
      query.region.all (fun region => region.overlaps key.bounds)) := by
  simp [admits, Query.everything]

/-- Below a node outside of the region, no node meets the query. -/
theorem meets_eq_false_of_apart (hordered : key.bounds.ordered = true)
    (hapart : query.region.all (fun region => region.overlaps key.bounds) = false)
    (path : List Octant) : query.meets (key.along path) = false := by
  cases hregion : query.region with
  | none => simp [hregion] at hapart
  | some region =>
    rw [hregion, Option.all_some] at hapart
    have hbelow : region.overlaps (key.along path).bounds = false := by
      by_contra htouch
      rw [Bool.not_eq_false] at htouch
      exact absurd ((Key.overlaps_of_along hordered path htouch).symm.trans hapart) (by decide)
    simp [Query.meets, hregion, hbelow]

/-- Below a node at the depth limit, no node meets the query. -/
theorem meets_eq_false_of_closed (hclosed : opens query key = false) (o : Octant)
    {path : List Octant} (hdepth : key.address.depth.toNat + (path.length + 1) ≤ 63) :
    query.meets (key.along (o :: path)) = false := by
  cases hlimit : query.depthLimit with
  | none => simp [opens, hlimit] at hclosed
  | some limit =>
    have hat : limit ≤ key.address.depth := by simpa [opens, hlimit] using hclosed
    have hdeeper := Address.along_depth key.address (o :: path) (by rw [List.length_cons]; omega)
    have hbelow : limit < (key.address.along (o :: path)).depth := by
      rw [UInt64.lt_iff_toNat_lt, hdeeper, List.length_cons]
      rw [UInt64.le_iff_toNat_le] at hat
      omega
    simp [Query.meets, hlimit, hbelow]

theorem meets_of_touching (hlimit : ∀ limit, query.depthLimit = some limit →
      key.address.depth ≤ limit)
    (htouches : query.region.all (fun region => region.overlaps key.bounds) = true) :
    query.meets key = true := by
  simpa [Query.meets, htouches, Option.all_eq_true] using hlimit

/-! ## Selections -/

theorem visit_eq_filter_of_apart (hordered : key.bounds.ordered = true)
    (hapart : query.region.all (fun region => region.overlaps key.bounds) = false) :
    h.visit query levels key = (h.visit .everything levels key).filter query.meets := by
  have hnone : h.visit query levels key = [] := by
    cases levels <;> simp [visit, admits_eq_and h query, hapart]
  rw [hnone, eq_comm, List.filter_eq_nil_iff]
  intro node hnode
  obtain ⟨path, -, rfl⟩ := exists_along_of_mem_visit hnode
  simp [meets_eq_false_of_apart hordered hapart path]

theorem filter_eq_nil_of_closed (hclosed : opens query key = false)
    (hdepth : key.address.depth.toNat + (levels + 1) ≤ 63) (o : Octant) :
    (h.visit .everything levels (key.octant o)).filter query.meets = [] := by
  rw [List.filter_eq_nil_iff]
  intro node hnode
  obtain ⟨path, hlength, rfl⟩ := exists_along_of_mem_visit hnode
  have hdeep : key.address.depth.toNat + (path.length + 1) ≤ 63 := by omega
  rw [Bool.not_eq_true]
  exact meets_eq_false_of_closed hclosed o hdeep

/-- The nodes from a node down, where all of the levels are in a grid. The induction is on these
levels. -/
theorem visit_eq_filter (hordered : key.bounds.ordered = true) (hlevels : levels ≤ levelsBelow key)
    (hlimit : ∀ limit, query.depthLimit = some limit → key.address.depth ≤ limit) :
    h.visit query levels key = (h.visit .everything levels key).filter query.meets := by
  induction levels generalizing key with
  | zero =>
    cases htouches : query.region.all (fun region => region.overlaps key.bounds) with
    | false => exact visit_eq_filter_of_apart hordered htouches
    | true =>
      rw [visit, visit, admits_eq_and h query, htouches, Bool.and_true]
      split <;> simp [meets_of_touching hlimit htouches]
  | succ levels ih =>
    cases htouches : query.region.all (fun region => region.overlaps key.bounds) with
    | false => exact visit_eq_filter_of_apart hordered htouches
    | true =>
      have hdepth : key.address.depth.toNat + (levels + 1) ≤ 63 := by
        simp only [levelsBelow, Address.maxDepth] at hlevels
        omega
      have hself := meets_of_touching hlimit htouches
      have hopens : opens .everything key = true := rfl
      rw [visit_succ, visit_succ, admits_eq_and h query, htouches, Bool.and_true, if_pos hopens]
      split
      · rw [List.filter_cons_of_pos hself, List.filter_flatMap]
        cases hclosed : opens query key with
        | false =>
          rw [List.flatMap_eq_nil_iff.2 (fun o _ => filter_eq_nil_of_closed hclosed hdepth o)]
          rfl
        | true =>
          have hinside : ∀ limit, query.depthLimit = some limit → key.address.depth < limit :=
            (opens_iff query key).1 hclosed
          rw [if_pos rfl]
          refine congrArg (key :: ·) (List.flatMap_congr (fun o _ => ?_))
          have hchild : (key.octant o).address.depth.toNat = key.address.depth.toNat + 1 := by
            rw [Key.octant_address, Address.child_depth]
            omega
          refine ih (Key.ordered_octant hordered o) ?_ (fun limit hsome => ?_)
          · rw [levelsBelow, hchild, Address.maxDepth]
            omega
          · have hlt := hinside limit hsome
            rw [UInt64.lt_iff_toNat_lt] at hlt
            rw [UInt64.le_iff_toNat_le, hchild]
            omega
      · rfl

/-- In exact coordinates, and from a start key with an ordered box, a selection is that of all nodes
with points, filtered: by touching the region asked for, which need not be an ordered box, and by a
depth limit that the start key keeps to. -/
theorem select_eq_filter (h : Hierarchy Rat) (start : Key Rat) (query : Query Rat)
    (hordered : start.bounds.ordered = true)
    (hlimit : ∀ limit, query.depthLimit = some limit → start.address.depth ≤ limit) :
    h.select start query = (h.select start ⟨none, none⟩).filter (fun key =>
      query.region.all (fun region => region.overlaps key.bounds) &&
        query.depthLimit.all (fun limit => key.address.depth ≤ limit)) := by
  have hvisit : h.visit query (levelsBelow start) start =
      (h.visit .everything (levelsBelow start) start).filter query.meets :=
    visit_eq_filter hordered (Nat.le_refl _) hlimit
  refine Key.eq_of_sorted (select_sorted h start query) ((select_sorted h start _).filter _) ?_
  rw [select, select, hvisit]
  exact (List.mergeSort_perm _ _).trans ((List.mergeSort_perm _ _).symm.filter _)

/-- A region whose corners are in the wrong order touches the root and its lowest octant, not the
highest one. The octants of the lowest one are too deep. -/
theorem select_eq_filter_inverted :
    let start : Key Rat := .root ⟨⟨0, 8⟩, ⟨0, 8⟩, ⟨0, 8⟩⟩
    let lowest := start.octant ⟨false, false, false⟩
    let highest := start.octant ⟨true, true, true⟩
    let h : Hierarchy Rat :=
      .ofList [(start, 4), (lowest, 3), (highest, 1), (lowest.octant ⟨true, true, true⟩, 3)]
    let query : Query Rat := ⟨some ⟨⟨3, 1⟩, ⟨3, 1⟩, ⟨1, 2⟩⟩, some 1⟩
    start.bounds.ordered = true ∧ start.address.depth ≤ 1 ∧
      h.select start query = (h.select start ⟨none, none⟩).filter (fun key =>
        query.region.all (fun region => region.overlaps key.bounds) &&
          query.depthLimit.all (fun limit => key.address.depth ≤ limit)) ∧
      (h.select start ⟨none, none⟩).length = 4 ∧ (h.select start query).length = 2 := by
  intro start lowest highest h query
  have hordered : start.bounds.ordered = true := by decide +kernel
  have hdepth : start.address.depth ≤ 1 := by decide +kernel
  have hlimit : ∀ limit, query.depthLimit = some limit → start.address.depth ≤ limit := by
    rintro limit hsome
    cases hsome
    exact hdepth
  refine ⟨hordered, hdepth, select_eq_filter h start query hordered hlimit, ?_, ?_⟩
  all_goals
    rw [select, List.length_mergeSort]
    decide +kernel

end Hierarchy

end PointTiles
