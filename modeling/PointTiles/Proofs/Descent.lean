import PointTiles.Key

/-! # Descending along octants

Where a list of octants leads, as numbers. A path of `n` octants multiplies every coordinate by
`2 ^ n` and adds the number whose binary digits are the halves taken, all of it in 64-bit words.

* `Octant.index`: that number, for one axis.
* `Address.along`, `Key.along`: the node at the end of a path, depths counted in words.
* `Address.OfCell`: the addresses that keys descended from a root have.
* `Address.along_injective`: up to 64 levels down, different paths of one length lead from a node to
  different addresses, even where the node's own coordinates lose their high bits.
* `Address.along_path`, `Key.descend_eq_ok_iff`: the path of a cell's address leads to it.
-/

namespace PointTiles
set_option autoImplicit false

-- Powers of numbers are those of the core library, whatever else is imported.
attribute [local instance (high)] instPowNat

/-! ## Paths as numbers -/

namespace Octant

/-- The number that a path spells on one axis, the first octant its highest digit. -/
def index (axis : Axis) : List Octant → Nat
  | [] => 0
  | o :: path => (o.on axis).toNat * 2 ^ path.length + index axis path

theorem index_lt (axis : Axis) (path : List Octant) : index axis path < 2 ^ path.length := by
  induction path with
  | nil => simp [index]
  | cons o path ih =>
    have hbit : (o.on axis).toNat ≤ 1 := Bool.toNat_le _
    have hmul : (o.on axis).toNat * 2 ^ path.length ≤ 1 * 2 ^ path.length :=
      Nat.mul_le_mul_right _ hbit
    simp only [index, List.length_cons, Nat.pow_succ]
    omega

/-- A number below the base is the last digit in that base. -/
theorem digit_unique {base high low high' low' : Nat} (hlow : low < base) (hlow' : low' < base)
    (h : high * base + low = high' * base + low') : high = high' ∧ low = low' := by
  have hdiv := congrArg (· / base) h
  simp only [Nat.mul_comm _ base, Nat.mul_add_div (Nat.zero_lt_of_lt hlow),
    Nat.div_eq_of_lt hlow, Nat.div_eq_of_lt hlow', Nat.add_zero] at hdiv
  rw [hdiv] at h
  exact ⟨hdiv, Nat.add_left_cancel h⟩

theorem bit_eq_of_index_eq {axis : Axis} {o o' : Octant} {path path' : List Octant}
    (hlen : path.length = path'.length)
    (h : index axis (o :: path) = index axis (o' :: path')) :
    o.on axis = o'.on axis ∧ index axis path = index axis path' := by
  have hlt := index_lt axis path
  have hlt' := index_lt axis path'
  rw [index, index, ← hlen] at h
  rw [← hlen] at hlt'
  obtain ⟨hdigit, hrest⟩ := digit_unique hlt hlt' h
  have hbit : ∀ b b' : Bool, b.toNat = b'.toNat → b = b' := by decide
  exact ⟨hbit _ _ hdigit, hrest⟩

/-- A path is known from its length and the numbers it spells. -/
theorem path_ext {path path' : List Octant} (hlen : path.length = path'.length)
    (h : ∀ axis, index axis path = index axis path') : path = path' := by
  induction path generalizing path' with
  | nil => exact (List.length_eq_zero_iff.1 hlen.symm).symm
  | cons o path ih =>
    cases path' with
    | nil => simp at hlen
    | cons o' path' =>
      have hlen' : path.length = path'.length := by simpa using hlen
      have hsplit := fun axis => bit_eq_of_index_eq hlen' (h axis)
      rw [Vec.ext_on (fun axis => (hsplit axis).1), ih hlen' (fun axis => (hsplit axis).2)]

theorem exists_byte (o : Octant) : ∃ n : UInt8, n < 8 ∧ ofByte n = o := by
  obtain ⟨x, y, z⟩ := o
  refine ⟨UInt8.ofNat (x.toNat + 2 * y.toNat + 4 * z.toNat), ?_⟩
  cases x <;> cases y <;> cases z <;> decide

/-- Every path is spelled by bytes below eight. -/
theorem exists_bytes (path : List Octant) :
    ∃ bytes : List UInt8, (∀ n ∈ bytes, n < 8) ∧ bytes.map ofByte = path := by
  induction path with
  | nil => exact ⟨[], by simp, rfl⟩
  | cons o path ih =>
    obtain ⟨n, hn, ho⟩ := exists_byte o
    obtain ⟨bytes, hbytes, hpath⟩ := ih
    refine ⟨n :: bytes, ?_, by rw [List.map_cons, ho, hpath]⟩
    intro m hm
    rcases List.mem_cons.1 hm with rfl | hm
    · exact hn
    · exact hbytes m hm

theorem mem_all (o : Octant) : o ∈ all := by
  obtain ⟨x, y, z⟩ := o
  cases x <;> cases y <;> cases z <;> decide

theorem nodup_all : all.Nodup := by decide

end Octant

/-! ## Addresses along a path -/

namespace Address

/-- The address at the end of a path. -/
def along (a : Address) : List Octant → Address
  | [] => a
  | o :: path => (a.child o).along path

theorem child_depth (o : Octant) (a : Address) :
    (a.child o).depth.toNat = (a.depth.toNat + 1) % 2 ^ (64 : Nat) := by
  simp [child]

theorem child_cell (o : Octant) (a : Address) (axis : Axis) :
    ((a.child o).cell.on axis).toNat =
      (2 * (a.cell.on axis).toNat + (o.on axis).toNat) % 2 ^ (64 : Nat) := by
  simp only [child, Vec.on_zipWith, UInt64.toNat_add, UInt64.toNat_shiftLeft]
  cases o.on axis <;> simp [Nat.shiftLeft_eq, Nat.mul_comm]

theorem along_depth (a : Address) (path : List Octant)
    (hfits : a.depth.toNat + path.length < 2 ^ (64 : Nat)) :
    (a.along path).depth.toNat = a.depth.toNat + path.length := by
  induction path generalizing a with
  | nil => rfl
  | cons o path ih =>
    rw [List.length_cons] at hfits ⊢
    have hchild : (a.child o).depth.toNat = a.depth.toNat + 1 := by
      rw [child_depth]
      omega
    rw [along, ih _ (by omega), hchild]
    omega

theorem along_cell (a : Address) (path : List Octant) (axis : Axis) :
    ((a.along path).cell.on axis).toNat =
      ((a.cell.on axis).toNat * 2 ^ path.length + Octant.index axis path) % 2 ^ (64 : Nat) := by
  induction path generalizing a with
  | nil =>
    have hword := (a.cell.on axis).toNat_lt
    simp only [along, Octant.index, List.length_nil]
    omega
  | cons o path ih =>
    have hshift : (2 * (a.cell.on axis).toNat + (o.on axis).toNat) * 2 ^ path.length =
        (a.cell.on axis).toNat * 2 ^ (path.length + 1) + (o.on axis).toNat * 2 ^ path.length := by
      rw [Nat.add_mul, Nat.pow_succ, Nat.mul_comm 2, Nat.mul_assoc, Nat.mul_comm 2]
    rw [along, ih, child_cell, Nat.add_mod, Nat.mod_mul_mod, ← Nat.add_mod, hshift,
      List.length_cons, Octant.index, Nat.add_assoc]

/-- The coordinates of the node itself may be anything: they only shift the numbers of the paths. -/
theorem along_injective {a : Address} {path path' : List Octant}
    (hlen : path.length = path'.length) (hfits : path.length ≤ 64)
    (h : a.along path = a.along path') : path = path' := by
  refine Octant.path_ext hlen (fun axis => ?_)
  have hcell := along_cell a path axis
  rw [h, along_cell a path' axis, ← hlen] at hcell
  have hpow : 2 ^ path.length ∣ 2 ^ (64 : Nat) := Nat.pow_dvd_pow 2 hfits
  have hmod := congrArg (· % 2 ^ path.length) hcell
  simp only [Nat.mod_mod_of_dvd _ hpow, Nat.mul_add_mod_self_right] at hmod
  have hlt := Octant.index_lt axis path
  have hlt' := Octant.index_lt axis path'
  rw [← hlen] at hlt'
  rw [Nat.mod_eq_of_lt hlt, Nat.mod_eq_of_lt hlt'] at hmod
  exact hmod.symm

/-- Nothing is in two octants of a node. -/
theorem along_child_ne {a : Address} {o o' : Octant} {path path' : List Octant} (hne : o ≠ o')
    (hfits : a.depth.toNat + path.length < 64) (hfits' : a.depth.toNat + path'.length < 64) :
    (a.child o).along path ≠ (a.child o').along path' := by
  intro hsame
  have hdepth := along_depth a (o :: path) (by rw [List.length_cons]; omega)
  have hdepth' := along_depth a (o' :: path') (by rw [List.length_cons]; omega)
  rw [along, hsame, ← along, hdepth', List.length_cons, List.length_cons] at hdepth
  have hpath : o :: path = o' :: path' := by
    refine along_injective ?_ ?_ hsame
    · rw [List.length_cons, List.length_cons]
      omega
    · rw [List.length_cons]
      omega
  exact hne (List.cons.inj hpath).1

/-! ## The addresses of cells -/

/-- The address is that of a cell: a key can have it, and no other address. -/
def OfCell (a : Address) : Prop := a.depth.toNat ≤ maxDepth ∧ a.InGrid

instance (a : Address) : Decidable a.OfCell :=
  inferInstanceAs (Decidable (a.depth.toNat ≤ maxDepth ∧ a.InGrid))

/-! ## The path of an address -/

theorem index_octantAt (a : Address) (axis : Axis) (levels : Nat) :
    Octant.index axis ((List.range levels).reverse.map a.octantAt) =
      (a.cell.on axis).toNat % 2 ^ levels := by
  induction levels with
  | zero => simp [Octant.index, Nat.mod_one]
  | succ levels ih =>
    rw [List.range_succ, List.reverse_concat, List.map_cons, Octant.index, ih, Nat.mod_pow_succ,
      List.length_map, List.length_reverse, List.length_range, octantAt, Vec.on_map,
      Nat.toNat_testBit, Nat.mul_comm, Nat.add_comm]

theorem length_path (a : Address) : a.path.length = a.depth.toNat := by
  simp [path]

/-- The path of an address in its grid leads from the root to that address. -/
theorem along_path {a : Address} (ha : a.OfCell) : root.along a.path = a := by
  obtain ⟨hdepth, hgrid⟩ := ha
  simp only [maxDepth] at hdepth
  have hfits : root.depth.toNat + a.path.length < 2 ^ (64 : Nat) := by
    rw [length_path]
    change 0 + _ < _
    omega
  have hto : (root.along a.path).depth = a.depth := by
    rw [← UInt64.toNat_inj, along_depth root a.path hfits, length_path]
    exact Nat.zero_add _
  have hcell : (root.along a.path).cell = a.cell := by
    refine Vec.ext_on (fun axis => ?_)
    have hzero : (root.cell.on axis).toNat = 0 := by cases axis <;> rfl
    rw [← UInt64.toNat_inj, along_cell, hzero, Nat.zero_mul, Nat.zero_add, path, index_octantAt,
      Nat.mod_eq_of_lt (hgrid axis), Nat.mod_eq_of_lt (UInt64.toNat_lt _)]
  cases hend : root.along a.path with
  | mk depth cell =>
    rw [hend] at hto hcell
    rw [show depth = a.depth from hto, show cell = a.cell from hcell]

end Address

/-! ## Keys along a path -/

namespace Key

variable {α : Type} [Coordinate α]

/-- The key at the end of a path. -/
def along (key : Key α) : List Octant → Key α
  | [] => key
  | o :: path => (key.octant o).along path

@[simp] theorem octant_address (o : Octant) (key : Key α) :
    (key.octant o).address = key.address.child o := rfl

@[simp] theorem along_address (key : Key α) (path : List Octant) :
    (key.along path).address = key.address.along path := by
  induction path generalizing key with
  | nil => rfl
  | cons o path ih => rw [along, ih, octant_address, Address.along]

/-- Bisection never fails above the greatest depth that a word holds. -/
theorem follow_eq_along (key : Key α) (path : List Octant)
    (hfits : key.address.depth.toNat + path.length < 2 ^ (64 : Nat)) :
    follow path key = .ok (key.along path) := by
  induction path generalizing key with
  | nil => rfl
  | cons o path ih =>
    rw [List.length_cons] at hfits
    have hdepth : (key.octant o).address.depth.toNat = key.address.depth.toNat + 1 := by
      rw [octant_address, Address.child_depth]
      omega
    rw [follow, bisect_eq_octant o key (by omega)]
    exact ih (key.octant o) (by omega)

theorem descend_eq_ok_iff {bounds : Box α} {a : Address} {key : Key α} :
    descend bounds a = .ok key ↔ a.OfCell ∧ key = (root bounds).along a.path := by
  rw [descend, Address.OfCell]
  split
  · rename_i hdeep
    simp only [reduceCtorEq, false_iff]
    rintro ⟨⟨hdepth, -⟩, -⟩
    omega
  · rename_i hdepth
    split
    · rename_i hgrid
      have hfits : (root bounds).address.depth.toNat + a.path.length < 2 ^ (64 : Nat) := by
        rw [Address.length_path]
        simp only [Address.maxDepth] at hdepth
        change 0 + _ < _
        omega
      rw [follow_eq_along _ _ hfits, Except.ok.injEq, eq_comm]
      simp [hgrid, Nat.le_of_not_lt hdepth]
    · rename_i hgrid
      simp [hgrid]

/-- An address too deep is refused for that, wherever it lies. -/
theorem descend_eq_error_iff {bounds : Box α} {a : Address} {fault : Fault} :
    descend bounds a = .error fault ↔ ¬ a.OfCell ∧
      fault = if Address.maxDepth < a.depth.toNat then .keyTooDeep a else .keyOutsideGrid a := by
  by_cases ha : a.OfCell
  · have hkey : descend bounds a = .ok ((root bounds).along a.path) := descend_eq_ok_iff.2 ⟨ha, rfl⟩
    simp [hkey, ha]
  · simp only [ha, not_false_eq_true, true_and, descend, @eq_comm _ fault]
    split
    · rw [Except.error.injEq]
    · rename_i hdepth
      have hgrid : ¬ a.InGrid := fun hgrid => ha ⟨Nat.le_of_not_lt hdepth, hgrid⟩
      rw [if_neg hgrid, Except.error.injEq]

theorem descend_address {bounds : Box α} {a : Address} {key : Key α}
    (h : descend bounds a = .ok key) : key.address = a := by
  obtain ⟨ha, rfl⟩ := descend_eq_ok_iff.1 h
  rw [along_address]
  exact Address.along_path ha

end Key

end PointTiles
