import PointTiles.Hierarchy.Words
import PointTiles.Proofs.Bisection
import PointTiles.Proofs.Hierarchy.PageEffect
import PointTiles.Proofs.KeyOrder

/-! # Merging a page

When merging a page succeeds, what it answers then, and what becomes of the counts.

* `mergePageInWords_eq`: done on words, merging never stops.
* `subtrees_sorted`, `mem_subtrees_iff`: the keys answered are those of the subtrees, in key order.
* `count_mergePage_of_points`, `count_mergePage_of_absent`: the counts afterwards.
* `merged_page_effect`: all of it together.
-/

namespace PointTiles.Hierarchy
set_option autoImplicit false

variable {α : Type} [Coordinate α] {root : Box α} {page : Page} {h : Hierarchy α}

/-! ## On words -/

theorem mergeEntriesInWords_eq (root : Box α) (entries : List (Address × PageEntry))
    (h : Hierarchy α) : mergeEntriesInWords root entries h = some (mergeEntries root entries h) := by
  induction entries generalizing h with
  | nil => rfl
  | cons e entries ih =>
    obtain ⟨a, entry⟩ := e
    rw [mergeEntriesInWords, Key.descendInWords_eq, Option.bind_eq_bind, Option.bind_some]
    cases hkey : Key.descend root a with
    | error fault => simp only [mergeEntries, hkey]
    | ok key =>
      cases entry with
      | points n =>
        simp only [mergeEntries, hkey]
        exact ih (h.merge key n)
      | subtree =>
        simp only [mergeEntries, hkey, ih]
        rfl

theorem mergePageInWords_eq (root : Box α) (page : Page) (h : Hierarchy α) :
    h.mergePageInWords root page = some (h.mergePage root page) :=
  mergeEntriesInWords_eq root page.toList h

/-! ## The answer -/

theorem addresses_sorted (page : Page) :
    page.toList.Pairwise (fun e e' => compare e.1 e'.1 = .lt) :=
  Std.TreeMap.ordered_keys_toList

theorem subtrees_sorted {subtrees : List (Key α)}
    (hok : (h.mergePage root page).2 = .ok subtrees) :
    subtrees.Pairwise (fun a b => compare a b = .lt) := by
  obtain ⟨hcells, rfl⟩ := mergePage_eq_ok_iff.1 hok
  rw [List.pairwise_map]
  refine ((addresses_sorted page).filter _).imp_of_mem (fun {e e'} he he' hlt => ?_)
  rw [Key.compare_def, keyAt_address root (hcells e (List.mem_of_mem_filter he)),
    keyAt_address root (hcells e' (List.mem_of_mem_filter he'))]
  exact hlt

theorem mem_subtrees_iff {subtrees : List (Key α)} {key : Key α}
    (hok : (h.mergePage root page).2 = .ok subtrees) :
    key ∈ subtrees ↔
      (key.address, .subtree) ∈ page.toList ∧ Key.descend root key.address = .ok key := by
  obtain ⟨hcells, rfl⟩ := mergePage_eq_ok_iff.1 hok
  rw [List.mem_map]
  constructor
  · rintro ⟨⟨a, entry⟩, hmem, rfl⟩
    obtain ⟨hmem, hsubtree⟩ := List.mem_filter.1 hmem
    have ha : a.OfCell := hcells _ hmem
    obtain rfl : entry = .subtree := of_decide_eq_true hsubtree
    rw [keyAt_address root ha]
    exact ⟨hmem, Key.descend_eq_ok_iff.2 ⟨ha, rfl⟩⟩
  · rintro ⟨hmem, hkey⟩
    obtain ⟨-, hkey⟩ := Key.descend_eq_ok_iff.1 hkey
    exact ⟨(key.address, .subtree), List.mem_filter.2 ⟨hmem, by simp⟩, hkey.symm⟩

theorem fault_of_mergePage {fault : Fault} (hfail : (h.mergePage root page).2 = .error fault) :
    ∃ e ∈ page.toList, fault = .keyTooDeep e.1 ∨ fault = .keyOutsideGrid e.1 := by
  obtain ⟨before, a, entry, after, hcut, -, hfault⟩ := mergeEntries_eq_error_iff.1 hfail
  refine ⟨(a, entry), by simp [hcut], ?_⟩
  obtain ⟨-, rfl⟩ := Key.descend_eq_error_iff.1 hfault
  split
  · exact .inl rfl
  · exact .inr rfl

/-! ## The counts -/

theorem count_mergePage_of_points {key : Key α} {n : UInt64}
    (hmem : (key.address, .points n) ∈ page.sound) : (h.mergePage root page).1.count key = n := by
  rw [count_eq, counts_mergePage_of_points hmem, Option.getD_some]

theorem count_mergePage_of_absent {key : Key α}
    (habsent : ∀ n, (key.address, .points n) ∉ page.toList) :
    (h.mergePage root page).1.count key = h.count key := by
  have hsound : ∀ n, (key.address, .points n) ∉ page.sound :=
    fun n hmem => habsent n (Page.mem_of_mem_sound hmem)
  rw [count, getElem?_mergePage_of_absent hsound, count]

/-- Merging a page succeeds for the pages all of whose addresses are those of cells, and no others; it
fails with one of the other addresses, and needs no operation on words that has no result. Where it
succeeds it answers the keys of the page's subtrees, in strictly ascending order and as descending from
the root finds them. Each address with a count has that count afterwards, and every other count is as
before, those of the subtrees included. -/
theorem merged_page_effect (root : Box α) (page : Page) (h : Hierarchy α) :
    h.mergePageInWords root page = some (h.mergePage root page) ∧
    ((∃ subtrees, (h.mergePage root page).2 = .ok subtrees) ↔ ∀ e ∈ page.toList,
      e.1.depth.toNat ≤ 63 ∧ ∀ axis, (e.1.cell.on axis).toNat < 2 ^ e.1.depth.toNat) ∧
    (∀ fault, (h.mergePage root page).2 = .error fault →
      ∃ e ∈ page.toList, fault = .keyTooDeep e.1 ∨ fault = .keyOutsideGrid e.1) ∧
    ∀ subtrees, (h.mergePage root page).2 = .ok subtrees →
      subtrees.Pairwise (fun a b => compare a b = .lt) ∧
      (∀ key, key ∈ subtrees ↔
        (key.address, .subtree) ∈ page.toList ∧ Key.descend root key.address = .ok key) ∧
      (∀ key n, (key.address, .points n) ∈ page.toList → (h.mergePage root page).1.count key = n) ∧
      ∀ key, (∀ n, (key.address, .points n) ∉ page.toList) →
        (h.mergePage root page).1.count key = h.count key := by
  refine ⟨mergePageInWords_eq root page h, ?_, fun fault hfail => fault_of_mergePage hfail,
    fun subtrees hok => ⟨subtrees_sorted hok, fun key => mem_subtrees_iff hok, fun key n hmem => ?_,
      fun key habsent => count_mergePage_of_absent habsent⟩⟩
  · constructor
    · rintro ⟨subtrees, hok⟩
      exact (mergePage_eq_ok_iff.1 hok).1
    · intro hcells
      exact ⟨_, mergePage_eq_ok_iff.2 ⟨hcells, rfl⟩⟩
  · apply count_mergePage_of_points
    rwa [Page.sound_eq_toList (mergePage_eq_ok_iff.1 hok).1]

/-- The hierarchy has counts for the subtree and for a node that the page does not name; the one for
the subtree has a box. The page's second count is zero. -/
theorem merged_page_effect_over_counts :
    let root : Box Rat := ⟨⟨0, 64⟩, ⟨0, 64⟩, ⟨0, 64⟩⟩
    let child : Key Rat := (Key.root root).octant ⟨true, false, false⟩
    let other : Key Rat := .ofAddress ⟨900, ⟨5, 5, 5⟩⟩
    let last : Address := ⟨63, ⟨0, 0x7fffffffffffffff, 0⟩⟩
    let page : Page :=
      ⟨.ofList [(Address.root, PageEntry.points 7), (child.address, .subtree), (last, .points 0)]⟩
    let h : Hierarchy Rat := .ofList [(child, 9), (other, 4), (.ofAddress last, 2)]
    ∃ subtrees, (h.mergePage root page).2 = .ok subtrees ∧ child ∈ subtrees ∧
      (h.mergePage root page).1.count (.root root) = 7 ∧
      (h.mergePage root page).1.count (.ofAddress last) = 0 ∧
      (h.mergePage root page).1.count child = 9 ∧ (h.mergePage root page).1.count other = 4 := by
  intro root child other last page h
  have hentries : page.toList = [(.root, .points 7), (child.address, .subtree), (last, .points 0)] :=
    rfl
  have hcells : ∀ e ∈ page.toList, e.1.OfCell := by
    rw [hentries]
    decide
  have hchild : Key.descend root child.address = .ok child :=
    @Key.descend_along Rat _ root [⟨true, false, false⟩] (by decide)
  obtain ⟨-, hsucceeds, -, heffect⟩ := merged_page_effect root page h
  obtain ⟨subtrees, hok⟩ := hsucceeds.2 hcells
  obtain ⟨-, hmem, hentered, hkept⟩ := heffect subtrees hok
  refine ⟨subtrees, hok, (hmem child).2 ⟨by simp [hentries], hchild⟩, ?_, ?_, ?_, ?_⟩
  · exact hentered (.root root) 7 (by simp [hentries, Key.root])
  · exact hentered (.ofAddress last) 0 (by simp [hentries, Key.ofAddress])
  · rw [hkept child (fun n hpoints => ?_)]
    · rfl
    · rw [hentries] at hpoints
      simp [child, last, Key.root, Key.octant, Address.root, Address.child] at hpoints
  · rw [hkept other (fun n hpoints => ?_)]
    · rfl
    · rw [hentries] at hpoints
      simp [other, child, last, Key.root, Key.octant, Key.ofAddress, Address.root,
        Address.child] at hpoints

end PointTiles.Hierarchy
