import PointTiles.Proofs.Hierarchy.Contents
import PointTiles.Proofs.Merging

/-! # What a merged page leaves

A page is merged entry by entry. Where it stops at an address that is in no grid, the counts before
that address have been entered; and an address that had a node before keeps the box of that node.

* `Page.sound_eq_of_cut`: the entries before the first bad one.
* `toList_mergePage_eq_iff`: which pages change nothing.
* `failed_merge_effect`: a merge that fails, with the condition for it to change nothing.
* `keptBounds_of_mem`, `keptBounds_of_new`: the box that is kept for a key.
* `merged_boxes`: a merge that succeeds, with the condition for a node to have the box derived from the
  root.
-/

namespace PointTiles
set_option autoImplicit false

variable {α : Type} [Coordinate α]

theorem Page.sound_eq_of_cut {page : Page} {before after : List (Address × PageEntry)} {a : Address}
    {entry : PageEntry} (hcut : page.toList = before ++ (a, entry) :: after)
    (hbefore : ∀ e ∈ before, e.1.OfCell) (ha : ¬ a.OfCell) : page.sound = before := by
  have hall : ∀ e ∈ before, decide e.1.OfCell = true := fun e he => decide_eq_true (hbefore e he)
  rw [Page.sound, soundEntries, hcut, List.takeWhile_append_of_pos hall,
    List.takeWhile_cons_of_neg (by simpa using ha), List.append_nil]

namespace Hierarchy

variable {root : Box α} {page : Page} {h : Hierarchy α}

/-! ## Merges that fail -/

theorem counts_mergePage_of_points {a : Address} {n : UInt64} (hmem : (a, .points n) ∈ page.sound) :
    (h.mergePage root page).1.counts a = some n := by
  rw [counts, getElem?_mergePage_of_points hmem]
  rfl

theorem nodeWith_of_counts {a : Address} {n : UInt64} (ha : a.OfCell) (hcount : h.counts a = some n) :
    h.nodes[a]? = some (nodeWith root h a n) := by
  obtain ⟨node, hnode, rfl⟩ := Option.map_eq_some_iff.1 hcount
  rw [nodeWith, keptBounds, keyAt_address root ha, hnode]

/-- Merging changes nothing where every count that it enters was there before. -/
theorem toList_mergePage_eq_iff : (h.mergePage root page).1.toList = h.toList ↔
    ∀ a n, (a, .points n) ∈ page.sound → h.counts a = some n := by
  rw [toList_eq_iff]
  constructor
  · intro hsame a n hmem
    have hentered : (h.mergePage root page).1.counts a = some n := counts_mergePage_of_points hmem
    rwa [counts, hsame a] at hentered
  · intro hold a
    by_cases hentered : ∃ n, (a, .points n) ∈ page.sound
    · obtain ⟨n, hmem⟩ := hentered
      rw [getElem?_mergePage_of_points hmem]
      exact (nodeWith_of_counts (ofCell_of_mem_soundEntries hmem) (hold a n hmem)).symm
    · exact getElem?_mergePage_of_absent (not_exists.1 hentered)

/-- A merge that fails does so at the first address that is in no grid. The counts before it have been
entered then, and all else is as it was: the merge is all or nothing exactly where those counts
were there before. -/
theorem failed_merge_effect {fault : Fault} (hfail : (h.mergePage root page).2 = .error fault) :
    ∃ before a entry after, page.toList = before ++ (a, entry) :: after ∧
      (∀ e ∈ before, e.1.OfCell) ∧ Key.descend root a = .error fault ∧
      (∀ b n, (b, .points n) ∈ before → (h.mergePage root page).1.counts b = some n) ∧
      (∀ b : Address, (∀ n, (b, .points n) ∉ before) →
        (h.mergePage root page).1.nodes[b]? = h.nodes[b]?) ∧
      ((h.mergePage root page).1.toList = h.toList ↔
        ∀ b n, (b, .points n) ∈ before → h.counts b = some n) := by
  obtain ⟨before, a, entry, after, hcut, hbefore, hfault⟩ := mergeEntries_eq_error_iff.1 hfail
  have hsound : page.sound = before :=
    Page.sound_eq_of_cut hcut hbefore (Key.descend_eq_error_iff.1 hfault).1
  refine ⟨before, a, entry, after, hcut, hbefore, hfault, ?_, ?_, ?_⟩
  · intro b n hmem
    rw [← hsound] at hmem
    exact counts_mergePage_of_points hmem
  · intro b habsent
    rw [← hsound] at habsent
    exact getElem?_mergePage_of_absent habsent
  · rw [← hsound]
    exact toList_mergePage_eq_iff

/-- A page whose first count is there already. -/
theorem failed_merge_effect_repeated :
    let root : Box Rat := ⟨⟨0, 64⟩, ⟨0, 64⟩, ⟨0, 64⟩⟩
    let page : Page := ⟨.ofList [(Address.root, PageEntry.points 5), (⟨1, ⟨2, 0, 0⟩⟩, .points 9)]⟩
    let h : Hierarchy Rat := empty.merge (.root root) 5
    (h.mergePage root page).2 = .error (.keyOutsideGrid ⟨1, ⟨2, 0, 0⟩⟩) ∧
      (h.mergePage root page).1.toList = h.toList := by
  intro root page h
  have hfail : (h.mergePage root page).2 = .error (.keyOutsideGrid ⟨1, ⟨2, 0, 0⟩⟩) := rfl
  obtain ⟨before, a, entry, after, hcut, hbefore, -, -, -, hiff⟩ := failed_merge_effect hfail
  refine ⟨hfail, hiff.2 (fun b n hmem => ?_)⟩
  have hpage : (b, .points n) ∈ page.toList := by
    rw [hcut]
    exact List.mem_append_left _ hmem
  have hentries : page.toList = [(.root, .points 5), (⟨1, ⟨2, 0, 0⟩⟩, .points 9)] := rfl
  rw [hentries, List.mem_pair] at hpage
  rcases hpage with hfirst | hsecond
  · cases hfirst
    rfl
  · cases hsecond
    exact absurd (hbefore _ hmem) (by decide)

/-- A page whose second address is in no grid is refused, and leaves its first count all the same. -/
theorem failed_merge_of_two_entries :
    let root : Box Rat := ⟨⟨0, 64⟩, ⟨0, 64⟩, ⟨0, 64⟩⟩
    let page : Page := ⟨.ofList [(Address.root, PageEntry.points 5), (⟨1, ⟨2, 0, 0⟩⟩, .points 9)]⟩
    let h : Hierarchy Rat := empty
    (h.mergePage root page).2 = .error (.keyOutsideGrid ⟨1, ⟨2, 0, 0⟩⟩) ∧
      h.toList = [] ∧ (h.mergePage root page).1.toList = [(.root root, 5)] := by
  intro root page h
  refine ⟨rfl, rfl, rfl⟩

/-! ## Boxes -/

omit [Coordinate α] in
theorem keptBounds_of_mem {key old : Key α} (hold : old ∈ h.keys)
    (haddress : old.address = key.address) : h.keptBounds key = old.bounds := by
  obtain ⟨node, hnode, hbounds⟩ := mem_keys_iff.1 hold
  rw [keptBounds, ← haddress, hnode, hbounds]

omit [Coordinate α] in
theorem keptBounds_of_new {key : Key α} (hnew : ∀ old ∈ h.keys, old.address ≠ key.address) :
    h.keptBounds key = key.bounds := by
  rw [keptBounds]
  split
  next node hnode =>
    have hold : ⟨key.address, node.bounds⟩ ∈ h.keys := mem_keys_iff.2 ⟨node, hnode, rfl⟩
    exact absurd (Eq.refl key.address) (hnew ⟨key.address, node.bounds⟩ hold)
  next => rfl

omit [Coordinate α] in
theorem keptBounds_eq_iff {key : Key α} : h.keptBounds key = key.bounds ↔
    ∀ old ∈ h.keys, old.address = key.address → old.bounds = key.bounds := by
  constructor
  · intro hkept old hold haddress
    rw [← keptBounds_of_mem hold haddress, hkept]
  · intro hsame
    by_cases hold : ∃ old ∈ h.keys, old.address = key.address
    · obtain ⟨old, hmem, haddress⟩ := hold
      rw [keptBounds_of_mem hmem haddress, hsame old hmem haddress]
    · exact keptBounds_of_new (fun old hmem haddress => hold ⟨old, hmem, haddress⟩)

/-- After a merge that succeeds one key has the address of an entry of the page, with the count of
that entry. Where the address was that of a key before, the key is still that one, with the box it had;
where it is new, the key is the one that descending from the root finds. So the box is the one derived
from the root exactly where no key from before has this address and another box. -/
theorem merged_boxes {subtrees : List (Key α)} (hok : (h.mergePage root page).2 = .ok subtrees)
    {a : Address} {n : UInt64} (hmem : (a, .points n) ∈ page.toList) :
    ∃ key stored : Key α, Key.descend root a = .ok key ∧ stored.address = a ∧
      (stored, n) ∈ (h.mergePage root page).1.toList ∧
      (∀ other ∈ (h.mergePage root page).1.keys, other.address = a → other = stored) ∧
      (∀ old ∈ h.keys, old.address = a → stored = old) ∧
      ((∀ old ∈ h.keys, old.address ≠ a) → stored = key) ∧
      (stored.bounds = key.bounds ↔ ∀ old ∈ h.keys, old.address = a → old.bounds = key.bounds) := by
  have hcells := (mergePage_eq_ok_iff.1 hok).1
  have ha : a.OfCell := hcells _ hmem
  have haddress := keyAt_address root ha
  have hnode : (h.mergePage root page).1.nodes[a]? = some (nodeWith root h a n) := by
    apply getElem?_mergePage_of_points
    rw [Page.sound_eq_toList hcells]
    exact hmem
  refine ⟨keyAt root a, ⟨a, h.keptBounds (keyAt root a)⟩, Key.descend_eq_ok_iff.2 ⟨ha, rfl⟩, rfl,
    mem_toList_iff.2 hnode, ?_, ?_, ?_, ?_⟩
  · intro other hother hsame
    obtain ⟨node, hother, hbounds⟩ := mem_keys_iff.1 hother
    rw [hsame, hnode] at hother
    obtain rfl := Option.some.inj hother
    exact Key.eq_of_address_of_bounds hsame hbounds
  · intro old hold hsame
    have hkept : h.keptBounds (keyAt root a) = old.bounds :=
      keptBounds_of_mem hold (hsame.trans haddress.symm)
    exact Key.eq_of_address_of_bounds hsame.symm hkept
  · intro hnew
    have hkept : h.keptBounds (keyAt root a) = (keyAt root a).bounds := by
      apply keptBounds_of_new
      rwa [haddress]
    exact Key.eq_of_address_of_bounds haddress.symm hkept
  · have hiff : h.keptBounds (keyAt root a) = (keyAt root a).bounds ↔ _ := keptBounds_eq_iff
    rwa [haddress] at hiff

/-- One of the addresses is that of a key without a box, the other one is new. -/
theorem merged_boxes_old_and_new :
    let root : Box Rat := ⟨⟨0, 64⟩, ⟨0, 64⟩, ⟨0, 64⟩⟩
    let child : Address := ⟨1, ⟨1, 0, 0⟩⟩
    let page : Page := ⟨.ofList [(Address.root, PageEntry.points 100), (child, .points 40),
      (⟨2, ⟨3, 3, 3⟩⟩, .subtree)]⟩
    let h : Hierarchy Rat := empty.merge (.ofAddress .root) 1
    ∃ subtrees, (h.mergePage root page).2 = .ok subtrees ∧
      (.root, .points 100) ∈ page.toList ∧ (child, .points 40) ∈ page.toList ∧
      (.ofAddress .root, 100) ∈ (h.mergePage root page).1.toList ∧
      ∃ key, Key.descend root child = .ok key ∧ (key, 40) ∈ (h.mergePage root page).1.toList := by
  intro root child page h
  have hentries : page.toList = [(.root, .points 100), (child, .points 40),
      (⟨2, ⟨3, 3, 3⟩⟩, .subtree)] := rfl
  have hcells : ∀ e ∈ page.toList, e.1.OfCell := by
    rw [hentries]
    decide
  obtain ⟨subtrees, hok⟩ : ∃ subtrees, (h.mergePage root page).2 = .ok subtrees :=
    ⟨_, mergePage_eq_ok_iff.2 ⟨hcells, rfl⟩⟩
  have hfirst : (.root, .points 100) ∈ page.toList := by simp [hentries]
  have hsecond : (child, .points 40) ∈ page.toList := by simp [hentries]
  have hkeys : h.keys = [.ofAddress .root] := rfl
  refine ⟨subtrees, hok, hfirst, hsecond, ?_, ?_⟩
  · obtain ⟨-, stored, -, -, hstored, -, hold, -, -⟩ := merged_boxes hok hfirst
    have hsame : stored = .ofAddress .root := hold _ (by simp [hkeys]) rfl
    rwa [hsame] at hstored
  · obtain ⟨key, stored, hkey, -, hstored, -, -, hnew, -⟩ := merged_boxes hok hsecond
    have hsame : stored = key := hnew (fun old hmem => by
      rw [hkeys, List.mem_singleton] at hmem
      rw [hmem]
      decide)
    exact ⟨key, hkey, hsame ▸ hstored⟩

/-- A key that has been entered without a box, as it is read from its text, keeps the empty box. -/
theorem merged_box_of_earlier_key :
    let root : Box Rat := ⟨⟨0, 64⟩, ⟨0, 64⟩, ⟨0, 64⟩⟩
    let page : Page := ⟨.ofList [(Address.root, PageEntry.points 100)]⟩
    let h : Hierarchy Rat := empty.merge (.ofAddress .root) 1
    (h.mergePage root page).2 = .ok [] ∧ Key.descend root .root = .ok (.root root) ∧
      (h.mergePage root page).1.toList = [(.ofAddress .root, 100)] ∧
      (Key.ofAddress .root : Key Rat).bounds ≠ (Key.root root).bounds := by
  intro root page h
  exact ⟨rfl, rfl, rfl, by decide⟩

end Hierarchy

end PointTiles
