import PointTiles.Proofs.Bisection

/-! # Keys in order

Keys are compared by their addresses: by depth, then by the `x`, `y` and `z` of the cell, each word
as an unsigned number. Boxes do not count.

* `Address.compare_eq_then`, `Key.lt_iff`: the order word by word.
* `Key.lt_or_beq_or_gt`: of two keys one is the lesser, or they are equal.
* `Key.hashInto_eq_iff`: equal keys are those that no hasher tells apart.
* `Key.lt_along`: a key comes before every key below it.
* `Key.strict_total_order`: all of it together.
* `Key.sorted_of_addresses_differ`, `Key.eq_of_sorted`: a list of keys with different addresses,
  sorted, is strictly ascending, and there is one such list of the same keys.
-/

namespace PointTiles
set_option autoImplicit false

-- Powers of numbers are those of the core library, whatever else is imported.
attribute [local instance (high)] instPowNat

/-! ## Addresses word by word -/

theorem Word.compare_toNat (c d : UInt64) : compare c.toNat d.toNat = compare c d := by
  cases h : compare c d with
  | lt => exact Nat.compare_eq_lt.2 (UInt64.lt_iff_toNat_lt.1 (Std.compare_eq_lt.1 h))
  | eq => exact Nat.compare_eq_eq.2 (UInt64.toNat_inj.2 (Std.LawfulEqOrd.eq_of_compare h))
  | gt => exact Nat.compare_eq_gt.2 (UInt64.lt_iff_toNat_lt.1 (Std.compare_eq_gt.1 h))

namespace Address

/-- A word counts only where those before it are the same. -/
theorem compare_eq_then (a b : Address) :
    compare a b = (compare a.depth b.depth).then ((compare a.cell.x b.cell.x).then
      ((compare a.cell.y b.cell.y).then (compare a.cell.z b.cell.z))) := by
  rw [compare_def, toNats, toNats]
  simp only [List.compare_cons_cons, List.compare_nil_nil, Ordering.then_eq,
    Word.compare_toNat]

theorem words_injective {a b : Address} (h : a.words = b.words) : a = b :=
  toNats_injective (congrArg (List.map UInt64.toNat) h)

end Address

namespace Key

variable {α : Type} {a b c : Key α}

theorem compare_def (a b : Key α) : compare a b = compare a.address b.address := rfl

theorem lt_def : a < b ↔ compare a b = .lt := Iff.rfl

theorem beq_iff : (a == b) = true ↔ a.address = b.address := by
  change (a.address == b.address) = true ↔ _
  exact beq_iff_eq

/-! ## A strict total order -/

instance : Std.TransOrd (Key α) :=
  inferInstanceAs (Std.TransCmp (compareOn Key.address))

instance : Std.LawfulBEqOrd (Key α) where
  compare_eq_iff_beq {a b} := by
    rw [compare_def, beq_iff]
    exact Std.LawfulEqOrd.compare_eq_iff_eq

theorem lt_iff : a < b ↔ a.address.depth < b.address.depth ∨ a.address.depth = b.address.depth ∧
    (a.address.cell.x < b.address.cell.x ∨ a.address.cell.x = b.address.cell.x ∧
      (a.address.cell.y < b.address.cell.y ∨ a.address.cell.y = b.address.cell.y ∧
        a.address.cell.z < b.address.cell.z)) := by
  rw [lt_def, compare_def, Address.compare_eq_then]
  simp only [Ordering.then_eq_lt, Std.compare_eq_lt, Std.LawfulEqOrd.compare_eq_iff_eq]

theorem gt_iff (a b : Key α) : b < a ↔ compare a b = .gt := Std.OrientedCmp.gt_iff_lt.symm

/-- Of two keys one is the lesser or they are equal, and no two of the three. -/
theorem lt_or_beq_or_gt (a b : Key α) :
    (a < b ∧ (a == b) = false ∧ ¬ b < a) ∨ (¬ a < b ∧ (a == b) = true ∧ ¬ b < a) ∨
      (¬ a < b ∧ (a == b) = false ∧ b < a) := by
  -- Each of the three is one of the answers of a single comparison.
  rw [← Bool.not_eq_true, ← Std.LawfulBEqOrd.compare_eq_iff_beq, gt_iff a b, lt_def]
  cases compare a b <;> decide

protected theorem lt_trans (hab : a < b) (hbc : b < c) : a < c := Std.TransCmp.lt_trans hab hbc

theorem lt_iff_depth_lt (hdepth : a.address.depth ≠ b.address.depth) :
    a < b ↔ a.address.depth < b.address.depth := by
  rw [lt_iff]
  exact or_iff_left (fun h => hdepth h.1)

/-! ## Hashing -/

/-- A hasher that keeps what it is fed has the address, so it tells all other keys apart. -/
theorem hashInto_eq_iff :
    (∀ (σ : Type) (write : σ → UInt64 → σ) (state : σ),
      a.hashInto write state = b.hashInto write state) ↔ (a == b) = true := by
  rw [beq_iff]
  constructor
  · intro h
    have hkept : ∀ key : Key α, key.hashInto Array.push #[] = key.address.words.toArray := by
      intro key
      simp [hashInto]
    have hwords := h (Array UInt64) Array.push #[]
    rw [hkept, hkept] at hwords
    exact Address.words_injective (List.toArray_inj hwords)
  · intro h σ write state
    rw [hashInto, hashInto, h]

/-! ## Before the keys below -/

/-- However a path leads down, its end is deeper. -/
theorem lt_along [Coordinate α] {key : Key α} {path : List Octant} (hpath : path ≠ [])
    (hfits : key.address.depth.toNat + path.length < 2 ^ (64 : Nat)) : key < key.along path := by
  have hlen : 0 < path.length := List.length_pos_iff.2 hpath
  have hdepth := Address.along_depth key.address path hfits
  refine lt_iff.2 (.inl ?_)
  rw [along_address, UInt64.lt_iff_toNat_lt, hdepth]
  omega

/-- The order of keys is strict and total, the comparison answers equal exactly for equal keys, and
these are the keys that no hasher tells apart. None of it depends on the boxes. Keys are ordered by
depth, then by cell, so that a key comes before every key below it. -/
theorem strict_total_order [Coordinate α] (a b c : Key α) :
    ((a < b ∧ (a == b) = false ∧ ¬ b < a) ∨ (¬ a < b ∧ (a == b) = true ∧ ¬ b < a) ∨
      (¬ a < b ∧ (a == b) = false ∧ b < a)) ∧
    (a < b → b < c → a < c) ∧
    (compare a b = .eq ↔ (a == b) = true) ∧
    ((∀ (σ : Type) (write : σ → UInt64 → σ) (state : σ),
      a.hashInto write state = b.hashInto write state) ↔ (a == b) = true) ∧
    (∀ s t : Box α,
      let a' : Key α := { a with bounds := s }
      let b' : Key α := { b with bounds := t }
      compare a' b' = compare a b ∧ (a' == b') = (a == b) ∧ (a' < b' ↔ a < b)) ∧
    (a < b ↔ a.address.depth < b.address.depth ∨ a.address.depth = b.address.depth ∧
      (a.address.cell.x < b.address.cell.x ∨ a.address.cell.x = b.address.cell.x ∧
        (a.address.cell.y < b.address.cell.y ∨ a.address.cell.y = b.address.cell.y ∧
          a.address.cell.z < b.address.cell.z))) ∧
    (a.address.depth ≠ b.address.depth → (a < b ↔ a.address.depth < b.address.depth)) ∧
    ∀ directions : List UInt8, directions ≠ [] →
      a.address.depth.toNat + directions.length < 2 ^ (64 : Nat) →
      ∃ node, follow (directions.map Octant.ofByte) a = .ok node ∧
        followInWords directions a = some node ∧ a < node := by
  refine ⟨lt_or_beq_or_gt a b, Key.lt_trans, Std.LawfulBEqOrd.compare_eq_iff_beq, hashInto_eq_iff,
    fun s t => ⟨rfl, rfl, Iff.rfl⟩, lt_iff, lt_iff_depth_lt, fun directions hnonempty hfits => ?_⟩
  have hpath : directions.map Octant.ofByte ≠ [] := mt List.map_eq_nil_iff.1 hnonempty
  rw [← List.length_map Octant.ofByte] at hfits
  have hfollow := follow_eq_along a _ hfits
  refine ⟨_, hfollow, ?_, lt_along hpath hfits⟩
  rw [followInWords_eq, hfollow]
  rfl

/-- Keys that differ in the highest bit of one word, the lesser with the larger box, and a path down
to the deepest level that a word can number. -/
theorem strict_total_order_at_last_depth :
    let deep : UInt64 := 0xfffffffffffffffd
    let a : Key Rat := ⟨⟨deep, ⟨5, 0, 0x7fffffffffffffff⟩⟩, Vec.replicate ⟨0, 9⟩⟩
    let b : Key Rat := ⟨⟨deep, ⟨5, 0, 0xffffffffffffffff⟩⟩, Vec.replicate ⟨1, 0⟩⟩
    let c : Key Rat := ⟨⟨deep + 1, ⟨0, 0, 0⟩⟩, Vec.replicate ⟨0, 0⟩⟩
    let directions : List UInt8 := [255, 8]
    (a < b ∧ (a == b) = false ∧ ¬ b < a) ∧ b < c ∧ a < c ∧
      a.address.depth ≠ c.address.depth ∧ (a < c ↔ a.address.depth < c.address.depth) ∧
      directions ≠ [] ∧ a.address.depth.toNat + directions.length < 2 ^ (64 : Nat) ∧
      ∃ node, follow (directions.map Octant.ofByte) a = .ok node ∧
        followInWords directions a = some node ∧ a < node := by
  intro deep a b c directions
  obtain ⟨hone, htrans, -, -, -, -, -, hbelow⟩ := strict_total_order a b c
  obtain ⟨-, -, -, -, -, -, hshallow, -⟩ := strict_total_order a c b
  have hab : a < b := by decide
  have hbc : b < c := by decide
  have hdepth : a.address.depth ≠ c.address.depth := by decide
  have hnonempty : directions ≠ [] := by decide
  have hfits : a.address.depth.toNat + directions.length < 2 ^ (64 : Nat) := by decide
  refine ⟨?_, hbc, htrans hab hbc, hdepth, hshallow hdepth, hnonempty, hfits,
    hbelow directions hnonempty hfits⟩
  rcases hone with h | h | h
  · exact h
  · exact absurd hab h.1
  · exact absurd hab h.1

/-! ## Sorted lists -/

theorem sorted_of_addresses_differ {keys : List (Key α)}
    (hdiffer : keys.Pairwise (fun a b => a.address ≠ b.address)) :
    (keys.mergeSort (fun a b => (compare a b).isLE)).Pairwise (fun a b => compare a b = .lt) := by
  have hsorted : (keys.mergeSort (fun a b => (compare a b).isLE)).Pairwise
      (fun a b => (compare a b).isLE) := by
    refine List.pairwise_mergeSort (fun _ _ _ => Std.TransCmp.isLE_trans) (fun a b => ?_) keys
    rw [Std.OrientedOrd.eq_swap]
    cases compare b a <;> rfl
  have hapart := (List.mergeSort_perm keys (fun a b => (compare a b).isLE)).symm.pairwise hdiffer
    (fun {a b} hne => hne.symm)
  refine (hsorted.and hapart).imp (fun {a b} hab => ?_)
  obtain ⟨hle, hne⟩ := hab
  rw [compare_def] at hle ⊢
  cases hcmp : compare a.address b.address with
  | lt => rfl
  | eq => exact absurd (Std.LawfulEqOrd.eq_of_compare hcmp) hne
  | gt => simp [hcmp] at hle

/-- Strictly ascending lists of the same keys are the same. -/
theorem eq_of_sorted {keys keys' : List (Key α)}
    (hkeys : keys.Pairwise (fun a b => compare a b = .lt))
    (hkeys' : keys'.Pairwise (fun a b => compare a b = .lt)) (hperm : keys.Perm keys') :
    keys = keys' := by
  refine List.Perm.eq_of_pairwise (fun a b _ _ hab hba => ?_) hkeys hkeys' hperm
  exact absurd (Key.lt_trans hab hba) (by simp [lt_def])

end Key

end PointTiles
