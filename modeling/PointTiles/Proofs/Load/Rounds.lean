import PointTiles.Load.Rounds
import PointTiles.Proofs.Load.Messages
import PointTiles.Proofs.Load.Writing

/-! # The plain loop over the pages

* `Progress.loadPage_eq`, `Progress.loadPages_eq`: what pages do to the progress, one after the other.
  Which keys are found does not depend on the hierarchy.
* `Progress.exists_order`: the pages that the rounds fetch, in order, and what they leave.
* `Writes`, `count_foldl_of_last`, `count_foldl_of_none`: of the pages that write a key the last one
  counts. `count_foldl_twice`: the same pages once more change no count.
-/

namespace PointTiles
set_option autoImplicit false

variable {α : Type} [Coordinate α]

/-! ## Pages one after the other -/

/-- Merges the page at an address, as far as it can be had, read and merged. -/
def Hierarchy.mergeAt (source : Source) (root : Box α) (h : Hierarchy α) (a : Address) :
    Hierarchy α :=
  match pageOf source a with
  | some page => (h.mergePage root page).1
  | none => h

/-- The keys that the page at an address leads to. -/
def keysFrom (source : Source) (root : Box α) (a : Address) : List (Key α) :=
  match pageOf source a with
  | some page => (page.subtrees root).toOption.getD []
  | none => []

namespace Progress

variable {source : Source} {root : Box α}

theorem loadPage_eq (a : Address) (p : Progress α) :
    p.loadPage source root a =
      (⟨p.hierarchy.mergeAt source root a, p.fetched ++ [a],
        p.messages ++ (pageMessage? source root a).toList⟩, keysFrom source root a) := by
  cases hsource : source a with
  | error trouble =>
    have hpage : pageOf source a = none := by simp only [pageOf, hsource]
    simp only [loadPage, keysFrom, Hierarchy.mergeAt, pageMessage?, pageTask, hpage, hsource]
    rfl
  | ok text =>
    cases hparse : Page.parse text with
    | error fault =>
      have hpage : pageOf source a = none := by simp only [pageOf, hsource, hparse]
      simp only [loadPage, keysFrom, Hierarchy.mergeAt, pageMessage?, pageTask, hpage, hsource, hparse]
      rfl
    | ok page =>
      have hpage : pageOf source a = some page := pageOf_eq_some_iff.2 ⟨text, hsource, hparse⟩
      have hanswer : (p.hierarchy.mergePage root page).2 = page.subtrees root :=
        Hierarchy.mergePage_snd root page _ _
      simp only [loadPage, keysFrom, Hierarchy.mergeAt, pageMessage?, pageTask, hpage, hsource, hparse]
      generalize p.hierarchy.mergePage root page = merged at hanswer ⊢
      obtain ⟨h, answer⟩ := merged
      obtain rfl : answer = page.subtrees root := hanswer
      cases page.subtrees root <;> rfl

theorem loadPages_eq (keys : List (Key α)) (p : Progress α) :
    p.loadPages source root keys =
      (⟨(keys.map Key.address).foldl (Hierarchy.mergeAt source root) p.hierarchy,
        p.fetched ++ keys.map Key.address,
        p.messages ++ (keys.map Key.address).filterMap (pageMessage? source root)⟩,
        (keys.map Key.address).flatMap (keysFrom source root)) := by
  induction keys generalizing p with
  | nil => simp [loadPages]
  | cons key keys ih =>
    simp only [loadPages, loadPage_eq, ih, List.map_cons, List.foldl_cons, List.flatMap_cons,
      List.append_assoc, List.singleton_append]
    cases hmessage : pageMessage? source root key.address with
    | none =>
      rw [List.filterMap_cons_none hmessage]
      rfl
    | some message =>
      rw [List.filterMap_cons_some hmessage]
      rfl

/-- The rounds fetch the same pages in the same order whatever there was before. Merged in that order
they give the hierarchy, and the messages are in that order too. -/
theorem exists_order (source : Source) (root : Box α) (limit : Nat) (requested : List Address)
    (keys : List (Key α)) :
    ∃ order : List Address, ∀ p : Progress α, p.loadRounds source root limit requested keys =
      ⟨order.foldl (Hierarchy.mergeAt source root) p.hierarchy, p.fetched ++ order,
        p.messages ++ order.filterMap (pageMessage? source root)⟩ := by
  induction limit generalizing requested keys with
  | zero => exact ⟨[], fun p => by simp [loadRounds]⟩
  | succ limit ih =>
    cases hfresh : unrequested requested keys with
    | nil => exact ⟨[], fun p => by simp [loadRounds, hfresh]⟩
    | cons key fresh =>
      let round := (key :: fresh).map Key.address
      obtain ⟨order, horder⟩ := ih (requested ++ round) (round.flatMap (keysFrom source root))
      refine ⟨round ++ order, fun p => ?_⟩
      rw [loadRounds, hfresh]
      simp only [loadPages_eq]
      rw [horder]
      simp only [round, List.foldl_append, List.filterMap_append, List.append_assoc]

end Progress

/-! ## Counts -/

/-- The page at an address writes a count for another. -/
def Writes (source : Source) (a c : Address) (n : UInt64) : Prop :=
  ∃ page, pageOf source a = some page ∧ (c, .points n) ∈ page.sound

namespace Hierarchy

variable {source : Source} {root : Box α} {h : Hierarchy α} {a : Address} {key : Key α} {n : UInt64}

theorem count_mergeAt_of_writes (hwrites : Writes source a key.address n) :
    (h.mergeAt source root a).count key = n := by
  obtain ⟨page, hpage, hmem⟩ := hwrites
  simp only [mergeAt, hpage, count, getElem?_mergePage_of_points hmem, nodeWith]

theorem count_mergeAt_of_none (hnone : ∀ n, ¬ Writes source a key.address n) :
    (h.mergeAt source root a).count key = h.count key := by
  unfold mergeAt
  cases hpage : pageOf source a with
  | none => rfl
  | some page =>
    have habsent : ∀ n, (key.address, .points n) ∉ page.sound :=
      fun n hmem => hnone n ⟨page, hpage, hmem⟩
    simp only [count, getElem?_mergePage_of_absent habsent]

theorem count_foldl_of_none {order : List Address}
    (hnone : ∀ a ∈ order, ∀ n, ¬ Writes source a key.address n) :
    (order.foldl (mergeAt source root) h).count key = h.count key := by
  induction order generalizing h with
  | nil => rfl
  | cons a order ih =>
    rw [List.forall_mem_cons] at hnone
    rw [List.foldl_cons, ih hnone.2, count_mergeAt_of_none hnone.1]

theorem count_foldl_of_last {before after : List Address}
    (hwrites : Writes source a key.address n)
    (hlast : ∀ b ∈ after, ∀ m, ¬ Writes source b key.address m) :
    ((before ++ a :: after).foldl (mergeAt source root) h).count key = n := by
  rw [List.foldl_append, List.foldl_cons, count_foldl_of_none hlast, count_mergeAt_of_writes hwrites]

/-- Among pages of which some write an address there is a last one that does. -/
theorem exists_last_or_none (source : Source) (c : Address) (order : List Address) :
    (∃ before a after n, order = before ++ a :: after ∧ Writes source a c n ∧
      ∀ b ∈ after, ∀ m, ¬ Writes source b c m) ∨ ∀ a ∈ order, ∀ n, ¬ Writes source a c n := by
  induction order with
  | nil => exact .inr nofun
  | cons a order ih =>
    rcases ih with ⟨before, b, after, n, rfl, hwrites, hlast⟩ | hnone
    · exact .inl ⟨a :: before, b, after, n, rfl, hwrites, hlast⟩
    · by_cases hwrites : ∃ n, Writes source a c n
      · obtain ⟨n, hn⟩ := hwrites
        exact .inl ⟨[], a, order, n, rfl, hn, hnone⟩
      · exact .inr (List.forall_mem_cons.2 ⟨not_exists.1 hwrites, hnone⟩)

/-- The same pages in the same order once more change no count. -/
theorem count_foldl_twice (order : List Address) (h : Hierarchy α) (key : Key α) :
    (order.foldl (mergeAt source root) (order.foldl (mergeAt source root) h)).count key =
      (order.foldl (mergeAt source root) h).count key := by
  rcases exists_last_or_none source key.address order with
    ⟨before, a, after, n, rfl, hwrites, hlast⟩ | hnone
  · rw [count_foldl_of_last hwrites hlast, count_foldl_of_last hwrites hlast]
  · rw [count_foldl_of_none hnone]

end Hierarchy

end PointTiles
