import PointTiles.Proofs.Hierarchy.Contents
import PointTiles.Proofs.Load.Pages

/-! # Merging pages in any order

Pages that agree on the counts of common addresses may be merged in any order, and often.

* `PagesAgree`: no two reachable pages give one address different counts.
* `Enters`: some of these pages gives the address this count.
* `Written`, `Written.merge`: the hierarchy after these pages.
* `Written.toList_eq`: it depends on which pages they are, not on their order.
-/

namespace PointTiles
set_option autoImplicit false

variable {α : Type} [Coordinate α]

/-- No two reachable pages give one address different counts. -/
def PagesAgree (source : Source) (root : Box α) : Prop :=
  ∀ a b page page', Reachable source root a → Reachable source root b →
    pageOf source a = some page → pageOf source b = some page' →
    ∀ c n m, (c, .points n) ∈ page.toList → (c, .points m) ∈ page'.toList → n = m

/-- One of these pages, when merged, enters this count. -/
def Enters (source : Source) (pages : Multiset Address) (c : Address) (n : UInt64) : Prop :=
  ∃ a ∈ pages, ∃ page, pageOf source a = some page ∧ (c, .points n) ∈ page.sound

/-- The hierarchy is what another one becomes when these pages are merged. -/
structure Written (source : Source) (root : Box α) (start : Hierarchy α)
    (pages : Multiset Address) (h : Hierarchy α) : Prop where
  entered : ∀ c n, Enters source pages c n → h.nodes[c]? = some (start.nodeWith root c n)
  kept : ∀ c, (∀ n, ¬ Enters source pages c n) → h.nodes[c]? = start.nodes[c]?

variable {source : Source} {root : Box α} {start h h' : Hierarchy α} {pages pages' : Multiset Address}

theorem enters_cons {a c : Address} {n : UInt64} :
    Enters source (a ::ₘ pages) c n ↔
      (∃ page, pageOf source a = some page ∧ (c, .points n) ∈ page.sound) ∨
        Enters source pages c n := by
  simp only [Enters, Multiset.mem_cons, or_and_right, exists_or, exists_eq_left]

/-- Pages that agree give an address one count at most. -/
theorem Enters.unique (hagree : PagesAgree source root)
    (hpages : ∀ a ∈ pages, Reachable source root a) {c : Address} {n m : UInt64}
    (hn : Enters source pages c n) (hm : Enters source pages c m) : n = m := by
  obtain ⟨a, ha, page, hpage, hc⟩ := hn
  obtain ⟨b, hb, page', hpage', hc'⟩ := hm
  exact hagree a b page page' (hpages a ha) (hpages b hb) hpage hpage' c n m
    (Page.mem_of_mem_sound hc) (Page.mem_of_mem_sound hc')

namespace Written

theorem start_of_zero : Written source root start 0 start :=
  ⟨fun _ _ ⟨_, ha, _⟩ => absurd ha (Multiset.notMem_zero _), fun _ _ => rfl⟩

/-- The box that an address gets stays the same, whatever is merged before. -/
theorem nodeWith_eq (hw : Written source root start pages h) {c : Address} (hc : c.OfCell)
    (n : UInt64) : h.nodeWith root c n = start.nodeWith root c n := by
  have hkept : h.keptBounds (Hierarchy.keyAt root c) = start.keptBounds (Hierarchy.keyAt root c) := by
    by_cases hentered : ∃ m, Enters source pages c m
    · obtain ⟨m, hm⟩ := hentered
      rw [Hierarchy.keptBounds, Hierarchy.keyAt_address root hc, hw.entered c m hm]
      rfl
    · rw [Hierarchy.keptBounds, Hierarchy.keptBounds, Hierarchy.keyAt_address root hc,
        hw.kept c (not_exists.1 hentered)]
  rw [Hierarchy.nodeWith, hkept, Hierarchy.nodeWith]

theorem merge (hagree : PagesAgree source root) {a : Address} {page : Page}
    (hpage : pageOf source a = some page)
    (hpages : ∀ b ∈ a ::ₘ pages, Reachable source root b)
    (hw : Written source root start pages h) :
    Written source root start (a ::ₘ pages) (h.mergePage root page).1 := by
  have hthis : ∀ c m, (c, .points m) ∈ page.sound → Enters source (a ::ₘ pages) c m :=
    fun c m hm => enters_cons.2 (.inl ⟨page, hpage, hm⟩)
  constructor
  · intro c n hn
    -- Where this page enters the address too, it enters the same count.
    by_cases hmerged : ∃ m, (c, .points m) ∈ page.sound
    · obtain ⟨m, hm⟩ := hmerged
      have hsame : n = m := hn.unique hagree hpages (hthis c m hm)
      rw [Hierarchy.getElem?_mergePage_of_points hm, hsame,
        hw.nodeWith_eq (Hierarchy.ofCell_of_mem_soundEntries hm)]
    · rw [Hierarchy.getElem?_mergePage_of_absent (not_exists.1 hmerged)]
      rcases enters_cons.1 hn with ⟨page', hpage', hm⟩ | hold
      · cases hpage.symm.trans hpage'
        exact absurd ⟨n, hm⟩ hmerged
      · exact hw.entered c n hold
  · intro c hnone
    rw [Hierarchy.getElem?_mergePage_of_absent (fun m hm => hnone m (hthis c m hm))]
    exact hw.kept c (fun n hold => hnone n (enters_cons.2 (.inr hold)))

/-- A page that cannot be read enters nothing. -/
theorem skip {a : Address} (hpage : pageOf source a = none)
    (hw : Written source root start pages h) : Written source root start (a ::ₘ pages) h := by
  have hsame : ∀ c n, Enters source (a ::ₘ pages) c n ↔ Enters source pages c n := by
    intro c n
    rw [enters_cons, hpage]
    simp
  constructor
  · intro c n hn
    exact hw.entered c n ((hsame c n).1 hn)
  · intro c hnone
    exact hw.kept c (fun n hn => hnone n ((hsame c n).2 hn))

theorem toList_eq (hw : Written source root start pages h)
    (hw' : Written source root start pages' h') (hsame : pages = pages') : h.toList = h'.toList := by
  have hnodes : ∀ c : Address, h.nodes[c]? = h'.nodes[c]? := by
    intro c
    by_cases hentered : ∃ n, Enters source pages c n
    · obtain ⟨n, hn⟩ := hentered
      rw [hw.entered c n hn, hw'.entered c n (hsame ▸ hn)]
    · rw [hw.kept c (not_exists.1 hentered), hw'.kept c (hsame ▸ not_exists.1 hentered)]
  exact Hierarchy.toList_eq_iff.2 hnodes

theorem count_of_enters (hw : Written source root start pages h) {key : Key α} {n : UInt64}
    (hn : Enters source pages key.address n) : h.count key = n := by
  rw [Hierarchy.count, hw.entered _ n hn]
  rfl

theorem count_of_not_enters (hw : Written source root start pages h) {key : Key α}
    (hnone : ∀ n, ¬ Enters source pages key.address n) : h.count key = start.count key := by
  rw [Hierarchy.count, Hierarchy.count, hw.kept _ hnone]

end Written

end PointTiles
