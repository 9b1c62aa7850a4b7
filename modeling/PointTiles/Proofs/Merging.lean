import Mathlib.Data.List.TakeWhile
import PointTiles.Hierarchy
import PointTiles.Proofs.Descent

/-! # Merging pages

What a page does to a hierarchy. The entries are entered up to the first whose address is not that
of a cell; where there is none, the keys of the subtrees are answered.

* `Page.sound`: the entries before the first bad one.
* `mergePage_snd`: the answer does not depend on the hierarchy.
* `mergePage_eq_ok_iff`: when there is an answer, and which. `mergeEntries_eq_error_iff`: when there
  is none, and why.
* `getElem?_mergePage_of_points`, `getElem?_mergePage_of_absent`: the hierarchy afterwards.
-/

namespace PointTiles
set_option autoImplicit false

variable {α : Type} [Coordinate α]

/-- The entries before the first whose address is not that of a cell. -/
def soundEntries (entries : List (Address × PageEntry)) : List (Address × PageEntry) :=
  entries.takeWhile (fun e => e.1.OfCell)

/-- The entries of a page that are merged. -/
def Page.sound (page : Page) : List (Address × PageEntry) := soundEntries page.toList

theorem Page.mem_of_mem_sound {page : Page} {e : Address × PageEntry} (h : e ∈ page.sound) :
    e ∈ page.toList :=
  (List.takeWhile_sublist _).subset h

theorem Page.sound_eq_toList {page : Page} (h : ∀ e ∈ page.toList, e.1.OfCell) :
    page.sound = page.toList :=
  List.takeWhile_eq_self_iff.2 (fun e he => decide_eq_true (h e he))

namespace Hierarchy

/-! ## One entry -/

/-- The key of a cell. -/
def keyAt (root : Box α) (a : Address) : Key α := (Key.root root).along a.path

theorem keyAt_address (root : Box α) {a : Address} (ha : a.OfCell) : (keyAt root a).address = a :=
  Key.descend_address (Key.descend_eq_ok_iff.2 ⟨ha, rfl⟩)

theorem mergeEntries_points (root : Box α) {a : Address} (ha : a.OfCell) (n : UInt64)
    (entries : List (Address × PageEntry)) (h : Hierarchy α) :
    mergeEntries root ((a, .points n) :: entries) h =
      mergeEntries root entries (h.merge (keyAt root a) n) := by
  have hkey : Key.descend root a = .ok (keyAt root a) := Key.descend_eq_ok_iff.2 ⟨ha, rfl⟩
  simp only [mergeEntries, hkey]

theorem mergeEntries_subtree (root : Box α) {a : Address} (ha : a.OfCell)
    (entries : List (Address × PageEntry)) (h : Hierarchy α) :
    mergeEntries root ((a, .subtree) :: entries) h =
      ((mergeEntries root entries h).1,
        (mergeEntries root entries h).2.map (keyAt root a :: ·)) := by
  have hkey : Key.descend root a = .ok (keyAt root a) := Key.descend_eq_ok_iff.2 ⟨ha, rfl⟩
  simp only [mergeEntries, hkey]

theorem mergeEntries_bad (root : Box α) {a : Address} (ha : ¬ a.OfCell) (entry : PageEntry)
    (entries : List (Address × PageEntry)) (h : Hierarchy α) :
    ∃ fault, mergeEntries root ((a, entry) :: entries) h = (h, .error fault) := by
  cases hkey : Key.descend root a with
  | error fault => exact ⟨fault, by simp only [mergeEntries, hkey]⟩
  | ok key => exact absurd (Key.descend_eq_ok_iff.1 hkey).1 ha

/-! ## The answer -/

theorem map_eq_ok_iff {ε β γ : Type} {f : β → γ} {x : Except ε β} {c : γ} :
    x.map f = .ok c ↔ ∃ b, x = .ok b ∧ f b = c := by
  cases x <;> simp [Except.map]

theorem map_eq_error_iff {ε β γ : Type} {f : β → γ} {x : Except ε β} {error : ε} :
    x.map f = .error error ↔ x = .error error := by
  cases x <;> simp [Except.map]

theorem mergeEntries_snd (root : Box α) (entries : List (Address × PageEntry))
    (h h' : Hierarchy α) : (mergeEntries root entries h).2 = (mergeEntries root entries h').2 := by
  induction entries generalizing h h' with
  | nil => rfl
  | cons e entries ih =>
    obtain ⟨a, entry⟩ := e
    cases hkey : Key.descend root a with
    | error fault => simp only [mergeEntries, hkey]
    | ok key =>
      have ha := (Key.descend_eq_ok_iff.1 hkey).1
      cases entry with
      | points n =>
        rw [mergeEntries_points root ha, mergeEntries_points root ha]
        exact ih _ _
      | subtree => rw [mergeEntries_subtree root ha, mergeEntries_subtree root ha, ih h h']

theorem mergePage_snd (root : Box α) (page : Page) (h h' : Hierarchy α) :
    (h.mergePage root page).2 = (h'.mergePage root page).2 :=
  mergeEntries_snd root page.toList h h'

theorem mergeEntries_eq_ok_iff {root : Box α} {entries : List (Address × PageEntry)}
    {h : Hierarchy α} {keys : List (Key α)} :
    (mergeEntries root entries h).2 = .ok keys ↔ (∀ e ∈ entries, e.1.OfCell) ∧
      keys = (entries.filter (fun e => e.2 = .subtree)).map (fun e => keyAt root e.1) := by
  induction entries generalizing h keys with
  | nil => simp [mergeEntries, eq_comm]
  | cons e entries ih =>
    obtain ⟨a, entry⟩ := e
    rw [List.forall_mem_cons]
    by_cases ha : a.OfCell
    · cases entry with
      | points n =>
        rw [mergeEntries_points root ha, ih]
        simp [ha]
      | subtree =>
        rw [mergeEntries_subtree root ha, map_eq_ok_iff]
        constructor
        · rintro ⟨found, hfound, rfl⟩
          obtain ⟨hcells, rfl⟩ := ih.1 hfound
          exact ⟨⟨ha, hcells⟩, by simp⟩
        · rintro ⟨⟨-, hcells⟩, rfl⟩
          exact ⟨_, ih.2 ⟨hcells, rfl⟩, by simp⟩
    · obtain ⟨fault, hbad⟩ := mergeEntries_bad root ha entry entries h
      simp [hbad, ha]

theorem mergePage_eq_ok_iff {root : Box α} {page : Page} {h : Hierarchy α} {keys : List (Key α)} :
    (h.mergePage root page).2 = .ok keys ↔ (∀ e ∈ page.toList, e.1.OfCell) ∧
      keys = (page.toList.filter (fun e => e.2 = .subtree)).map (fun e => keyAt root e.1) :=
  mergeEntries_eq_ok_iff

/-- Merging fails on the first entry whose address is not that of a cell. -/
theorem mergeEntries_eq_error_iff {root : Box α} {entries : List (Address × PageEntry)}
    {h : Hierarchy α} {fault : Fault} :
    (mergeEntries root entries h).2 = .error fault ↔ ∃ before a entry after,
      entries = before ++ (a, entry) :: after ∧ (∀ e ∈ before, e.1.OfCell) ∧
        Key.descend root a = .error fault := by
  induction entries generalizing h with
  | nil => simp [mergeEntries]
  | cons e entries ih =>
    obtain ⟨b, entry⟩ := e
    by_cases hb : b.OfCell
    · have hrest : (mergeEntries root ((b, entry) :: entries) h).2 = .error fault ↔
          ∃ h' : Hierarchy α, (mergeEntries root entries h').2 = .error fault := by
        cases entry with
        | points n =>
          rw [mergeEntries_points root hb]
          exact ⟨fun herror => ⟨_, herror⟩, fun ⟨_, herror⟩ => mergeEntries_snd root entries _ _ ▸ herror⟩
        | subtree =>
          rw [mergeEntries_subtree root hb, map_eq_error_iff]
          exact ⟨fun herror => ⟨_, herror⟩, fun ⟨_, herror⟩ => mergeEntries_snd root entries _ _ ▸ herror⟩
      rw [hrest]
      constructor
      · rintro ⟨h', herror⟩
        obtain ⟨before, a, entry', after, rfl, hbefore, hfault⟩ := ih.1 herror
        exact ⟨(b, entry) :: before, a, entry', after, rfl,
          List.forall_mem_cons.2 ⟨hb, hbefore⟩, hfault⟩
      · rintro ⟨before, a, entry', after, hcut, hbefore, hfault⟩
        cases before with
        | nil =>
          obtain ⟨⟨rfl, -⟩, -⟩ : (b = a ∧ entry = entry') ∧ entries = after := by simpa using hcut
          exact absurd hb (Key.descend_eq_error_iff.1 hfault).1
        | cons first before =>
          obtain ⟨-, rfl⟩ := List.cons.inj hcut
          exact ⟨h, ih.2 ⟨before, a, entry', after, rfl, (List.forall_mem_cons.1 hbefore).2, hfault⟩⟩
    · constructor
      · intro herror
        cases hkey : Key.descend root b with
        | ok key => exact absurd (Key.descend_eq_ok_iff.1 hkey).1 hb
        | error fault' =>
          refine ⟨[], b, entry, entries, rfl, nofun, ?_⟩
          simp only [mergeEntries, hkey, Except.error.injEq] at herror
          rw [hkey, herror]
      · rintro ⟨before, a, entry', after, hcut, hbefore, hfault⟩
        cases before with
        | nil =>
          obtain ⟨⟨rfl, rfl⟩, -⟩ : (b = a ∧ entry = entry') ∧ entries = after := by simpa using hcut
          simp only [mergeEntries, hfault]
        | cons first before =>
          obtain ⟨rfl, -⟩ := List.cons.inj hcut
          exact absurd (hbefore _ List.mem_cons_self) hb

/-! ## The hierarchy afterwards -/

omit [Coordinate α] in
theorem getElem?_merge (h : Hierarchy α) (key : Key α) (n : UInt64) (a : Address) :
    (h.merge key n).nodes[a]? =
      if key.address = a then some ⟨h.keptBounds key, n⟩ else h.nodes[a]? := by
  rw [merge, Std.TreeMap.getElem?_insert]
  simp only [Std.LawfulEqOrd.compare_eq_iff_eq]

/-- The node of an address that a hierarchy gets with a count: an earlier box stays. -/
def nodeWith (root : Box α) (h : Hierarchy α) (a : Address) (n : UInt64) : Node α :=
  ⟨h.keptBounds (keyAt root a), n⟩

theorem nodeWith_merge {root : Box α} {h : Hierarchy α} {a b : Address} (hb : b.OfCell)
    (hne : b ≠ a) (ha : a.OfCell) (m n : UInt64) :
    nodeWith root (h.merge (keyAt root b) m) a n = nodeWith root h a n := by
  simp only [nodeWith, keptBounds, getElem?_merge, keyAt_address root hb, keyAt_address root ha,
    if_neg hne]

theorem soundEntries_cons {a : Address} (ha : a.OfCell) (entry : PageEntry)
    (entries : List (Address × PageEntry)) :
    soundEntries ((a, entry) :: entries) = (a, entry) :: soundEntries entries := by
  rw [soundEntries, List.takeWhile_cons_of_pos (by simpa using ha), soundEntries]

theorem ofCell_of_mem_soundEntries {entries : List (Address × PageEntry)}
    {e : Address × PageEntry} (hmem : e ∈ soundEntries entries) : e.1.OfCell := by
  simpa using List.mem_takeWhile_imp hmem

theorem getElem?_mergeEntries_of_absent {root : Box α} {entries : List (Address × PageEntry)}
    {h : Hierarchy α} {a : Address} (habsent : ∀ n, (a, .points n) ∉ soundEntries entries) :
    (mergeEntries root entries h).1.nodes[a]? = h.nodes[a]? := by
  induction entries generalizing h with
  | nil => rfl
  | cons e entries ih =>
    obtain ⟨b, entry⟩ := e
    by_cases hb : b.OfCell
    · rw [soundEntries_cons hb] at habsent
      have hrest : ∀ n, (a, .points n) ∉ soundEntries entries :=
        fun n hmem => habsent n (List.mem_cons_of_mem _ hmem)
      cases entry with
      | points n =>
        have hne : b ≠ a := by
          rintro rfl
          exact habsent n List.mem_cons_self
        rw [mergeEntries_points root hb, ih hrest, getElem?_merge, keyAt_address root hb, if_neg hne]
      | subtree =>
        rw [mergeEntries_subtree root hb]
        exact ih hrest
    · obtain ⟨fault, hbad⟩ := mergeEntries_bad root hb entry entries h
      rw [hbad]

theorem getElem?_mergeEntries_of_points {root : Box α} {entries : List (Address × PageEntry)}
    {h : Hierarchy α} {a : Address} {n : UInt64}
    (hdistinct : entries.Pairwise (fun e e' => e.1 ≠ e'.1))
    (hmem : (a, .points n) ∈ soundEntries entries) :
    (mergeEntries root entries h).1.nodes[a]? = some (nodeWith root h a n) := by
  induction entries generalizing h with
  | nil => cases hmem
  | cons e entries ih =>
    obtain ⟨b, entry⟩ := e
    have ha : a.OfCell := ofCell_of_mem_soundEntries hmem
    obtain ⟨hfirst, hapart⟩ := List.pairwise_cons.1 hdistinct
    have hrest : ∀ m, (a, .points m) ∈ soundEntries entries → b ≠ a :=
      fun m hlater => hfirst _ ((List.takeWhile_sublist _).subset hlater)
    by_cases hb : b.OfCell
    · rw [soundEntries_cons hb] at hmem
      rcases List.mem_cons.1 hmem with hhead | hlater
      · cases hhead
        rw [mergeEntries_points root ha,
          getElem?_mergeEntries_of_absent (fun m hlater => hrest m hlater rfl), getElem?_merge,
          keyAt_address root ha, if_pos rfl, nodeWith]
      · have hne := hrest n hlater
        cases entry with
        | points m =>
          rw [mergeEntries_points root hb, ih hapart hlater, nodeWith_merge hb hne ha]
        | subtree =>
          rw [mergeEntries_subtree root hb]
          exact ih hapart hlater
    · rw [soundEntries, List.takeWhile_cons_of_neg (by simpa using hb)] at hmem
      cases hmem

/-! ## Whole pages -/

theorem pairwise_toList (page : Page) : page.toList.Pairwise (fun e e' => e.1 ≠ e'.1) := by
  refine Std.TreeMap.distinct_keys_toList.imp (fun {e e'} hne hsame => hne ?_)
  rw [hsame]
  exact Std.ReflOrd.compare_self

theorem getElem?_mergePage_of_absent {root : Box α} {page : Page} {h : Hierarchy α} {a : Address}
    (habsent : ∀ n, (a, .points n) ∉ page.sound) :
    (h.mergePage root page).1.nodes[a]? = h.nodes[a]? :=
  getElem?_mergeEntries_of_absent habsent

theorem getElem?_mergePage_of_points {root : Box α} {page : Page} {h : Hierarchy α} {a : Address}
    {n : UInt64} (hmem : (a, .points n) ∈ page.sound) :
    (h.mergePage root page).1.nodes[a]? = some (nodeWith root h a n) :=
  getElem?_mergeEntries_of_points (pairwise_toList page) hmem

end Hierarchy

end PointTiles
