import Mathlib.Logic.ExistsUnique
import PointTiles.Key.Words
import PointTiles.Proofs.Descent

/-! # Bisection and descent undo each other

* `Key.bisectInWords_eq`, `Key.descendInWords_eq`: done on words, bisection stops only where the
  depth is the greatest word, and descent never stops.
* `Key.follow_root`, `Address.ofCell_along_root`: up to 63 bisections of a root lead to a cell.
* `Key.descend_along`: descending to the address of a key found by bisection finds that very key.
* `Key.existsUnique_bytes`: one list of directions leads to a cell.
* `Key.bisection_descent`: all of it together.
-/

namespace PointTiles
set_option autoImplicit false

-- Powers of numbers are those of the core library, whatever else is imported.
attribute [local instance (high)] instPowNat

/-! ## Operations on words -/

namespace Word

theorem toNat_shiftRight {c n : UInt64} (h : n.toNat < 64) :
    (c >>> n).toNat = c.toNat / 2 ^ n.toNat := by
  rw [UInt64.toNat_shiftRight, Nat.mod_eq_of_lt h, Nat.shiftRight_eq_div_pow]

theorem shiftRight?_eq {c n : UInt64} (h : n.toNat < 64) : shiftRight? c n = some (c >>> n) :=
  if_pos (UInt64.lt_iff_toNat_lt.2 h)

def ofBit (b : Bool) : UInt64 := if b then 1 else 0

theorem bit?_eq {c : UInt64} {level : Nat} (h : level < 64) :
    bit? c (UInt64.ofNat level) = some (ofBit (c.toNat.testBit level)) := by
  have hlevel : (UInt64.ofNat level).toNat = level := UInt64.toNat_ofNat_of_lt' (by
    rw [UInt64.size]
    omega)
  have hlt : (UInt64.ofNat level).toNat < 64 := by omega
  rw [bit?, shiftRight?_eq hlt, Option.map_some, Option.some.injEq, ← UInt64.toNat_inj,
    UInt64.toNat_and, toNat_shiftRight hlt, hlevel, Nat.testBit_eq_decide_div_mod_eq]
  change _ &&& 1 = _
  rw [Nat.and_one_is_mod]
  rcases Nat.mod_two_eq_zero_or_one (c.toNat / 2 ^ level) with hbit | hbit <;>
    simp [hbit, ofBit]

/-- Twice a number is even, and leaves room for one more. -/
theorem double?_eq (upper : Bool) (c : UInt64) :
    double? upper c = some ((c <<< 1) + ofBit upper) := by
  have htwice : (c <<< 1).toNat = 2 * c.toNat % 2 ^ (64 : Nat) := by
    simp [UInt64.toNat_shiftLeft, Nat.shiftLeft_eq, Nat.mul_comm]
  have hroom : (c <<< 1).toNat + (1 : UInt64).toNat < UInt64.size := by
    rw [htwice, UInt64.size]
    change _ + 1 < _
    omega
  change (if upper then add? (c <<< 1) 1 else some (c <<< 1)) = _
  cases upper with
  | true => exact if_pos hroom
  | false => simp [ofBit]

end Word

namespace Address

/-- The direction byte of three bits is the byte of their octant. -/
theorem ofByte_or (x y z : Bool) :
    Octant.ofByte (Word.ofBit x ||| Word.ofBit y <<< 1 ||| Word.ofBit z <<< 2).toUInt8 =
      ⟨x, y, z⟩ := by
  cases x <;> cases y <;> cases z <;> rfl

theorem directionAt?_eq (a : Address) {level : Nat} (h : level < 64) :
    ∃ n, a.directionAt? (UInt64.ofNat level) = some n ∧ Octant.ofByte n = a.octantAt level := by
  refine ⟨_, ?_, ofByte_or (a.cell.x.toNat.testBit level) (a.cell.y.toNat.testBit level)
    (a.cell.z.toNat.testBit level)⟩
  rw [directionAt?, Word.bit?_eq h, Word.bit?_eq h, Word.bit?_eq h]
  rfl

theorem lt_two_pow_iff_div_eq_zero (n k : Nat) : n < 2 ^ k ↔ n / 2 ^ k = 0 := by
  rw [Nat.div_eq_zero_iff]
  simp

/-- Nothing of a cell lies beyond its grid exactly when all three coordinates are below its side. -/
theorem shiftRight_eq_zero_iff {a : Address} (hdepth : a.depth.toNat < 64) :
    (a.cell.x ||| a.cell.y ||| a.cell.z) >>> a.depth = 0 ↔ a.InGrid := by
  rw [← UInt64.toNat_inj, Word.toNat_shiftRight hdepth, UInt64.toNat_or, UInt64.toNat_or]
  change _ = 0 ↔ _
  rw [← lt_two_pow_iff_div_eq_zero]
  constructor
  · intro h axis
    refine Nat.lt_of_le_of_lt ?_ h
    cases axis
    · exact Nat.le_trans Nat.left_le_or Nat.left_le_or
    · exact Nat.le_trans Nat.right_le_or Nat.left_le_or
    · exact Nat.right_le_or
  · intro h
    exact Nat.or_lt_two_pow (Nat.or_lt_two_pow (h .x) (h .y)) (h .z)

end Address

/-! ## Bisection and descent on words -/

namespace Key

variable {α : Type} [Coordinate α]

theorem ofByte_and_seven (n : UInt8) : Octant.ofByte (n &&& 7) = Octant.ofByte n := by
  have hmask : Nat.testBit 7 0 = true ∧ Nat.testBit 7 1 = true ∧ Nat.testBit 7 2 = true := by decide
  simp [Octant.ofByte, Nat.testBit_and, hmask]

/-- Bisection on words stops only where the depth is the greatest word. -/
theorem bisectInWords_eq (n : UInt8) (key : Key α) :
    key.bisectInWords n = (key.bisect (Octant.ofByte n)).toOption := by
  rw [bisectInWords, ofByte_and_seven, Word.double?_eq, Word.double?_eq, Word.double?_eq, bisect, Word.add?]
  change Option.bind (if key.address.depth.toNat + 1 < UInt64.size then _ else _) _ = _
  split <;> rfl

theorem followInWords_eq (bytes : List UInt8) (key : Key α) :
    followInWords bytes key = (follow (bytes.map Octant.ofByte) key).toOption := by
  induction bytes generalizing key with
  | nil => rfl
  | cons n bytes ih =>
    rw [followInWords, List.map_cons, follow, bisectInWords_eq]
    cases key.bisect (Octant.ofByte n) with
    | error fault => rfl
    | ok next => exact ih next

theorem walk_eq (a : Address) (key : Key α) (levels : List Nat) (hlevels : ∀ n ∈ levels, n < 64) :
    walk a (levels.map UInt64.ofNat) key = (follow (levels.map a.octantAt) key).toOption := by
  induction levels generalizing key with
  | nil => rfl
  | cons level levels ih =>
    rw [List.forall_mem_cons] at hlevels
    obtain ⟨n, hn, hoctant⟩ := Address.directionAt?_eq a hlevels.1
    rw [List.map_cons, List.map_cons, walk, follow, hn, ← hoctant]
    change (key.bisectInWords n).bind _ = _
    rw [bisectInWords_eq]
    cases key.bisect (Octant.ofByte n) with
    | error fault => rfl
    | ok next => exact ih next hlevels.2

theorem follow_root {bounds : Box α} {path : List Octant} (hlen : path.length ≤ Address.maxDepth) :
    follow path (root bounds) = .ok ((root bounds).along path) := by
  refine follow_eq_along _ _ ?_
  rw [Address.maxDepth] at hlen
  change 0 + _ < _
  omega

/-- Descent on words never stops. -/
theorem descendInWords_eq (bounds : Box α) (a : Address) :
    descendInWords bounds a = some (descend bounds a) := by
  rw [descendInWords, descend]
  split
  · rfl
  · rename_i hdepth
    have hlt : a.depth.toNat < 64 := by
      rw [Address.maxDepth] at hdepth
      omega
    have hbeyond := Address.shiftRight_eq_zero_iff hlt
    rw [Word.shiftRight?_eq hlt]
    change (if _ ≠ (0 : UInt64) then _ else _) = _
    by_cases hgrid : a.InGrid
    · have hwalk : walk a a.levels (root bounds) = (follow a.path (root bounds)).toOption := by
        refine walk_eq a (root bounds) _ (fun n hn => ?_)
        exact Nat.lt_trans (List.mem_range.1 (List.mem_reverse.1 hn)) hlt
      have hlen : a.path.length ≤ Address.maxDepth := by
        rw [Address.length_path]
        exact Nat.le_of_not_lt hdepth
      rw [if_neg (fun hne => hne (hbeyond.2 hgrid)), if_pos hgrid, hwalk, follow_root hlen]
      rfl
    · rw [if_pos (mt hbeyond.1 hgrid), if_neg hgrid]

end Key

/-! ## Paths and cells -/

namespace Octant

theorem ofByte_injOn {m n : UInt8} (hm : m < 8) (hn : n < 8) (h : ofByte m = ofByte n) : m = n := by
  have hall : ∀ i < 8, ∀ j < 8, ofByte (UInt8.ofNat i) = ofByte (UInt8.ofNat j) → i = j := by decide
  rw [← UInt8.toNat_inj]
  refine hall _ (UInt8.lt_iff_toNat_lt.1 hm) _ (UInt8.lt_iff_toNat_lt.1 hn) ?_
  rw [UInt8.ofNat_toNat, UInt8.ofNat_toNat, h]

theorem map_ofByte_injOn {bytes bytes' : List UInt8} (h : ∀ n ∈ bytes, n < 8)
    (h' : ∀ n ∈ bytes', n < 8) (hsame : bytes.map ofByte = bytes'.map ofByte) : bytes = bytes' := by
  induction bytes generalizing bytes' with
  | nil => exact (List.map_eq_nil_iff.1 hsame.symm).symm
  | cons n bytes ih =>
    cases bytes' with
    | nil => simp at hsame
    | cons n' bytes' =>
      rw [List.forall_mem_cons] at h h'
      obtain ⟨hbyte, hrest⟩ := List.cons.inj hsame
      rw [ofByte_injOn h.1 h'.1 hbyte, ih h.2 h'.2 hrest]

end Octant

namespace Address

theorem along_root_depth {path : List Octant} (hlen : path.length ≤ maxDepth) :
    (root.along path).depth.toNat = path.length := by
  rw [maxDepth] at hlen
  rw [along_depth root path (by change 0 + _ < _; omega)]
  exact Nat.zero_add _

/-- A path from the root spells the coordinates of the cell it leads to. -/
theorem along_root_cell {path : List Octant} (hlen : path.length ≤ maxDepth) (axis : Axis) :
    ((root.along path).cell.on axis).toNat = Octant.index axis path := by
  have hzero : (root.cell.on axis).toNat = 0 := by cases axis <;> rfl
  have hindex := Octant.index_lt axis path
  have hpow : 2 ^ path.length ≤ 2 ^ 63 := Nat.pow_le_pow_right Nat.two_pos hlen
  rw [along_cell, hzero, Nat.zero_mul, Nat.zero_add, Nat.mod_eq_of_lt (by omega)]

theorem ofCell_along_root {path : List Octant} (hlen : path.length ≤ maxDepth) :
    (root.along path).OfCell := by
  have hdepth := along_root_depth hlen
  refine ⟨by rw [hdepth]; exact hlen, fun axis => ?_⟩
  rw [hdepth, along_root_cell hlen]
  exact Octant.index_lt axis path

/-- Of the paths from the root, only the address's own leads to it. -/
theorem path_along_root {path : List Octant} (hlen : path.length ≤ maxDepth) :
    (root.along path).path = path := by
  have hlength : (root.along path).path.length = path.length := by
    rw [length_path, along_root_depth hlen]
  refine along_injective hlength ?_ (along_path (ofCell_along_root hlen))
  rw [hlength]
  exact Nat.le_trans hlen (by decide)

end Address

namespace Key

variable {α : Type} [Coordinate α]

theorem follow_eq_ok_iff {path : List Octant} {key node : Key α} :
    follow path key = .ok node ↔
      key.address.depth.toNat + path.length < 2 ^ (64 : Nat) ∧ node = key.along path := by
  induction path generalizing key with
  | nil =>
    have hword := key.address.depth.toNat_lt
    simp only [follow, along, Except.ok.injEq, List.length_nil, Nat.add_zero, hword, true_and]
    exact eq_comm
  | cons o path ih =>
    rw [follow, bisect, along, List.length_cons, UInt64.size]
    by_cases hroom : key.address.depth.toNat + 1 < 2 ^ (64 : Nat)
    · have hdepth : (key.octant o).address.depth.toNat = key.address.depth.toNat + 1 := by
        rw [octant_address, Address.child_depth, Nat.mod_eq_of_lt hroom]
      rw [if_pos hroom]
      change follow path (key.octant o) = .ok node ↔ _
      rw [ih, hdepth, Nat.add_assoc, Nat.add_comm 1]
    · rw [if_neg hroom]
      change Except.error _ = Except.ok node ↔ _
      have htoo : ¬ key.address.depth.toNat + (path.length + 1) < 2 ^ (64 : Nat) := by omega
      simp [htoo]

theorem descend_along {bounds : Box α} {path : List Octant}
    (hlen : path.length ≤ Address.maxDepth) :
    descend bounds ((root bounds).along path).address = .ok ((root bounds).along path) := by
  rw [descend_eq_ok_iff, along_address]
  refine ⟨Address.ofCell_along_root hlen, ?_⟩
  change _ = (root bounds).along (Address.root.along path).path
  rw [Address.path_along_root hlen]

theorem length_of_follow_root {bounds : Box α} {path : List Octant} {node : Key α}
    (h : follow path (root bounds) = .ok node) : path.length = node.address.depth.toNat := by
  obtain ⟨hfits, rfl⟩ := follow_eq_ok_iff.1 h
  rw [along_address, Address.along_depth _ _ hfits]
  exact (Nat.zero_add _).symm

/-- Every cell has one path from the root, and only one in bytes below eight. -/
theorem existsUnique_bytes (bounds : Box α) {a : Address} (ha : a.OfCell) :
    ∃! bytes : List UInt8, (∀ n ∈ bytes, n < 8) ∧
      ∃ node, follow (bytes.map Octant.ofByte) (root bounds) = .ok node ∧ node.address = a := by
  obtain ⟨bytes, hsmall, hpath⟩ := Octant.exists_bytes a.path
  have hkey : descend bounds a = .ok ((root bounds).along a.path) := descend_eq_ok_iff.2 ⟨ha, rfl⟩
  refine ⟨bytes, ⟨hsmall, (root bounds).along a.path, ?_, descend_address hkey⟩, ?_⟩
  · rw [hpath]
    exact follow_root (by rw [Address.length_path]; exact ha.1)
  · rintro bytes' ⟨hsmall', node, hfollow, hnode⟩
    have hlen := length_of_follow_root hfollow
    rw [hnode] at hlen
    obtain ⟨-, rfl⟩ := follow_eq_ok_iff.1 hfollow
    have hpath' : a.path = bytes'.map Octant.ofByte := by
      rw [← hnode, along_address]
      exact Address.path_along_root (hlen ▸ ha.1)
    exact Octant.map_ofByte_injOn hsmall' hsmall (hpath'.symm.trans hpath.symm)

/-- Bisecting a root along up to 63 directions gives the key of a cell, and descending to the cell
gives that key again, whatever the coordinates of its box have become. Descending succeeds for the
addresses of cells and no others, needs no operation on words that has no result, and gives the key
at the address; and one list of directions leads there. -/
theorem bisection_descent (bounds : Box α) :
    (∀ bytes : List UInt8, bytes.length ≤ 63 → ∃ key,
      follow (bytes.map Octant.ofByte) (root bounds) = .ok key ∧
      followInWords bytes (root bounds) = some key ∧
      key.address.depth.toNat = bytes.length ∧
      (∀ axis, (key.address.cell.on axis).toNat < 2 ^ bytes.length) ∧
      descend bounds key.address = .ok key) ∧
    ∀ a : Address,
      descendInWords bounds a = some (descend bounds a) ∧
      ((∃ key, descend bounds a = .ok key) ↔
        a.depth.toNat ≤ 63 ∧ ∀ axis, (a.cell.on axis).toNat < 2 ^ a.depth.toNat) ∧
      (∀ key, descend bounds a = .ok key → key.address = a ∧
        ∃! bytes : List UInt8, (∀ n ∈ bytes, n < 8) ∧
          ∃ node, follow (bytes.map Octant.ofByte) (root bounds) = .ok node ∧ node.address = a) ∧
      (¬ a.depth.toNat ≤ 63 → descend bounds a = .error (.keyTooDeep a)) ∧
      (a.depth.toNat ≤ 63 → (¬ ∀ axis, (a.cell.on axis).toNat < 2 ^ a.depth.toNat) →
        descend bounds a = .error (.keyOutsideGrid a)) := by
  refine ⟨fun bytes hlen => ?_, fun a => ⟨descendInWords_eq bounds a, ?_, fun key hkey => ?_, ?_, ?_⟩⟩
  · have hlen' : (bytes.map Octant.ofByte).length ≤ Address.maxDepth := by rwa [List.length_map]
    have hfollow : follow (bytes.map Octant.ofByte) (root bounds) =
        .ok ((root bounds).along (bytes.map Octant.ofByte)) := follow_root hlen'
    have hdepth := Address.along_root_depth hlen'
    refine ⟨_, hfollow, by rw [followInWords_eq, hfollow]; rfl, ?_, fun axis => ?_,
      descend_along hlen'⟩
    · rw [along_address]
      exact hdepth.trans (List.length_map _)
    · have hcell := (Address.ofCell_along_root hlen').2 axis
      rw [hdepth, List.length_map] at hcell
      rwa [along_address]
  · constructor
    · rintro ⟨key, hkey⟩
      exact (descend_eq_ok_iff.1 hkey).1
    · intro ha
      exact ⟨_, descend_eq_ok_iff.2 ⟨ha, rfl⟩⟩
  · exact ⟨descend_address hkey, existsUnique_bytes bounds (descend_eq_ok_iff.1 hkey).1⟩
  · intro hdeep
    exact if_pos (Nat.lt_of_not_le hdeep)
  · intro hdepth hgrid
    have hshallow : ¬ Address.maxDepth < a.depth.toNat := Nat.not_lt.2 hdepth
    rw [descend, if_neg hshallow]
    exact if_neg hgrid

/-- The last cell of the deepest level is reached by 63 bisections into the upper halves, and a cell
beyond it is refused. -/
theorem bisection_descent_deepest :
    let bounds : Box Rat := ⟨⟨0, 1⟩, ⟨0, 1⟩, ⟨0, 1⟩⟩
    let last : UInt64 := 0x7fffffffffffffff
    let beyond : Address := ⟨63, ⟨last, last + 1, last⟩⟩
    let bytes : List UInt8 := List.replicate 63 7
    bytes.length ≤ 63 ∧
      (∃ key, follow (bytes.map Octant.ofByte) (root bounds) = .ok key ∧
        key.address = ⟨63, ⟨last, last, last⟩⟩ ∧ descend bounds key.address = .ok key) ∧
      descend bounds beyond = .error (.keyOutsideGrid beyond) := by
  intro bounds last beyond bytes
  obtain ⟨hbisect, hdescend⟩ := bisection_descent bounds
  have hlen : bytes.length ≤ 63 := by decide
  obtain ⟨key, hfollow, -, -, -, hkey⟩ := hbisect bytes hlen
  refine ⟨hlen, ⟨key, hfollow, ?_, hkey⟩, ?_⟩
  · obtain ⟨-, rfl⟩ := follow_eq_ok_iff.1 hfollow
    rw [along_address]
    decide +kernel
  · exact (hdescend beyond).2.2.2.2 (by decide) (fun hgrid => absurd (hgrid .y) (by decide))

end Key

end PointTiles
