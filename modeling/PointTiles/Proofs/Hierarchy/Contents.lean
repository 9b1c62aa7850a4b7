import Mathlib.Algebra.BigOperators.Group.Finset.Basic
import PointTiles.Hierarchy

/-! # What a hierarchy holds

A hierarchy as a map from addresses to counts. What is asked of it, its keys, its size and its total,
follows from this map.

* `counts`: the map. `count_eq`, `mem_addresses_iff`, `keys_sorted`, `size_eq_length`, `isEmpty_iff`:
  what is asked of a hierarchy, by its map.
* `mem_toList_iff`, `mem_keys_iff`, `toList_eq_iff`: the same for its nodes, boxes included.
* `points`: the sum of all counts. `total_of_fits`, `total_of_overflow`: the total is this sum if it
  is a word, and there is none otherwise. `total_eq_of_points`: the total depends on it alone.
-/

namespace PointTiles
set_option autoImplicit false

-- Sums and powers of numbers are those of the core library, whatever else is imported.
attribute [local instance (high)] Zero.ofOfNat0 instPowNat

variable {α : Type}

theorem Key.eq_of_address_of_bounds {key other : Key α} (haddress : key.address = other.address)
    (hbounds : key.bounds = other.bounds) : key = other :=
  congr (congrArg Key.mk haddress) hbounds

namespace Hierarchy

variable {h h' : Hierarchy α} {key : Key α} {a : Address}

/-- The counts as a map from addresses. -/
def counts (h : Hierarchy α) (a : Address) : Option UInt64 := h.nodes[a]?.map Node.count

theorem count_eq (h : Hierarchy α) (key : Key α) : h.count key = (h.counts key.address).getD 0 := by
  rw [count, counts]
  cases h.nodes[key.address]? <;> rfl

/-! ## Keys -/

theorem mem_toList_iff {n : UInt64} :
    (key, n) ∈ h.toList ↔ h.nodes[key.address]? = some ⟨key.bounds, n⟩ := by
  rw [toList, List.mem_map]
  constructor
  · rintro ⟨⟨a, node⟩, hmem, hentry⟩
    obtain ⟨rfl, rfl⟩ := Prod.mk.inj hentry
    exact Std.TreeMap.mem_toList_iff_getElem?_eq_some.1 hmem
  · intro hnode
    exact ⟨_, Std.TreeMap.mem_toList_iff_getElem?_eq_some.2 hnode, rfl⟩

theorem mem_keys_iff :
    key ∈ h.keys ↔ ∃ node, h.nodes[key.address]? = some node ∧ key.bounds = node.bounds := by
  rw [keys, List.mem_map]
  constructor
  · rintro ⟨⟨key, n⟩, hmem, rfl⟩
    exact ⟨_, mem_toList_iff.1 hmem, rfl⟩
  · rintro ⟨node, hnode, hbounds⟩
    exact ⟨(key, node.count), mem_toList_iff.2 (by rw [hnode, hbounds]), rfl⟩

theorem map_address_keys (h : Hierarchy α) : h.keys.map Key.address = h.nodes.keys := by
  rw [← Std.TreeMap.map_fst_toList_eq_keys]
  simp [keys, toList, Function.comp_def]

theorem keys_sorted (h : Hierarchy α) : h.keys.Pairwise (fun a b => compare a b = .lt) := by
  have hsorted : (h.keys.map Key.address).Pairwise (fun a b => compare a b = .lt) := by
    rw [map_address_keys]
    exact Std.TreeMap.ordered_keys
  exact List.pairwise_map.1 hsorted

theorem nodup_addresses (h : Hierarchy α) : (h.keys.map Key.address).Nodup := by
  rw [map_address_keys]
  exact Std.TreeMap.nodup_keys

theorem mem_addresses_iff : a ∈ h.keys.map Key.address ↔ (h.counts a).isSome = true := by
  rw [map_address_keys, Std.TreeMap.mem_keys, Std.TreeMap.mem_iff_isSome_getElem?, counts,
    Option.isSome_map]

theorem toList_eq_iff : h.toList = h'.toList ↔ ∀ a : Address, h.nodes[a]? = h'.nodes[a]? := by
  constructor
  · intro hsame a
    refine Option.ext (fun node => ?_)
    have hmem : (⟨a, node.bounds⟩, node.count) ∈ h.toList ↔
        (⟨a, node.bounds⟩, node.count) ∈ h'.toList := by rw [hsame]
    rwa [mem_toList_iff, mem_toList_iff] at hmem
  · intro hnodes
    rw [toList, toList, (Std.TreeMap.Equiv.of_forall_constGet?_eq hnodes).toList_eq]

/-! ## Sizes -/

theorem size_eq_length (h : Hierarchy α) : h.size = (h.keys.map Key.address).length := by
  rw [map_address_keys, Std.TreeMap.length_keys, size]

theorem isEmpty_iff : h.isEmpty = true ↔ ∀ a, h.counts a = none := by
  rw [isEmpty, Std.TreeMap.isEmpty_iff_forall_not_mem]
  simp only [counts, Option.map_eq_none_iff, Std.TreeMap.mem_iff_isSome_getElem?,
    Option.not_isSome_iff_eq_none]

theorem size_merge_le (h : Hierarchy α) (key : Key α) (n : UInt64) :
    h.size ≤ (h.merge key n).size :=
  Std.TreeMap.size_le_size_insert

/-! ## Totals -/

theorem sumWords_of_fits {ns : List UInt64} {sum : UInt64}
    (hfits : sum.toNat + (ns.map UInt64.toNat).sum < 2 ^ 64) :
    ∃ n, sumWords ns sum = .ok n ∧ n.toNat = sum.toNat + (ns.map UInt64.toNat).sum := by
  induction ns generalizing sum with
  | nil => exact ⟨sum, rfl, rfl⟩
  | cons m ns ih =>
    rw [List.map_cons, List.sum_cons] at hfits ⊢
    have hstep : sum.toNat + m.toNat < UInt64.size := by
      change _ < 2 ^ 64
      omega
    have hsum : (sum + m).toNat = sum.toNat + m.toNat := Nat.mod_eq_of_lt hstep
    rw [sumWords, if_pos hstep, ← Nat.add_assoc, ← hsum]
    exact ih (by omega)

theorem sumWords_of_overflow {ns : List UInt64} {sum : UInt64}
    (hover : 2 ^ 64 ≤ sum.toNat + (ns.map UInt64.toNat).sum) :
    sumWords ns sum = .error .additionOverflow := by
  induction ns generalizing sum with
  | nil =>
    have hlt := sum.toNat_lt
    rw [List.map_nil, List.sum_nil] at hover
    omega
  | cons m ns ih =>
    rw [List.map_cons, List.sum_cons] at hover
    rw [sumWords]
    split
    · rename_i hstep
      have hsum : (sum + m).toNat = sum.toNat + m.toNat := Nat.mod_eq_of_lt hstep
      exact ih (by omega)
    · rfl

/-- The sum of all counts, as a number of any size. -/
def points (h : Hierarchy α) : Nat :=
  ∑ a ∈ (h.keys.map Key.address).toFinset, ((h.counts a).getD 0).toNat

theorem sum_counts (h : Hierarchy α) :
    (0 : UInt64).toNat + ((h.toList.map Prod.snd).map UInt64.toNat).sum = h.points := by
  have hcount : ∀ e ∈ h.toList, h.counts e.1.address = some e.2 := by
    intro e he
    rw [counts, mem_toList_iff.1 he, Option.map_some]
  rw [points, List.sum_toFinset _ h.nodup_addresses, keys, List.map_map, List.map_map, List.map_map,
    UInt64.toNat_zero, Nat.zero_add]
  refine congrArg List.sum (List.map_congr_left (fun e he => ?_))
  simp [hcount e he]

theorem total_of_fits (hfits : h.points < 2 ^ 64) : ∃ n, h.total = .ok n ∧ n.toNat = h.points := by
  rw [← sum_counts] at hfits ⊢
  exact sumWords_of_fits hfits

theorem total_of_overflow (hover : 2 ^ 64 ≤ h.points) : h.total = .error .additionOverflow := by
  rw [← sum_counts] at hover
  exact sumWords_of_overflow hover

/-- Addresses without a node add nothing. -/
theorem points_eq_sum {addresses : Finset Address}
    (hall : (h.keys.map Key.address).toFinset ⊆ addresses) :
    h.points = ∑ a ∈ addresses, ((h.counts a).getD 0).toNat := by
  refine Finset.sum_subset hall (fun a _ hnot => ?_)
  rw [List.mem_toFinset, mem_addresses_iff, Option.not_isSome_iff_eq_none] at hnot
  rw [hnot]
  rfl

/-- A node without points counts as little as none. -/
theorem points_eq_of_counts (hsame : ∀ a, (h.counts a).getD 0 = (h'.counts a).getD 0) :
    h.points = h'.points := by
  have hleft : (h.keys.map Key.address).toFinset ⊆
      (h.keys.map Key.address).toFinset ∪ (h'.keys.map Key.address).toFinset :=
    Finset.subset_union_left
  rw [points_eq_sum hleft, points_eq_sum (h := h') Finset.subset_union_right]
  exact Finset.sum_congr rfl (fun a _ => congrArg UInt64.toNat (hsame a))

theorem total_eq_of_points (hpoints : h.points = h'.points) : h.total = h'.total := by
  by_cases hfits : h.points < 2 ^ 64
  · obtain ⟨n, htotal, hn⟩ := total_of_fits hfits
    obtain ⟨n', htotal', hn'⟩ := total_of_fits (hpoints ▸ hfits)
    have hword : n = n' := UInt64.toNat_inj.1 (by rw [hn, hn', hpoints])
    rw [htotal, htotal', hword]
  · rw [total_of_overflow (by omega), total_of_overflow (by omega)]

end Hierarchy

end PointTiles
