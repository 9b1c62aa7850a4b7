import Mathlib.Data.Multiset.ZeroCons
import PointTiles.Load
import PointTiles.Proofs.Merging

/-! # The pages of a load

* `unrequested`: which keys of a round are new.
* `pageOf`: the page that the source has at an address, if it can be fetched and read.
* `PointsTo`: a page that is fetched, read and merged without fault says that another page has a
  subtree. `Reachable`: the addresses that lead from the root by such pages.
* `Effect`, `TaskForm`, `apply_action`: what the task of a page does, action by action.
-/

namespace PointTiles
set_option autoImplicit false

variable {α : Type}

/-! ## New keys -/

theorem mem_of_mem_unrequested {requested : List Address} {keys : List (Key α)} {key : Key α}
    (hmem : key ∈ unrequested requested keys) : key ∈ keys ∧ key.address ∉ requested := by
  induction keys generalizing requested with
  | nil => cases hmem
  | cons first keys ih =>
    rw [unrequested] at hmem
    split at hmem
    · obtain ⟨hkeys, hnew⟩ := ih hmem
      exact ⟨List.mem_cons_of_mem _ hkeys, hnew⟩
    · rename_i hfirst
      rcases List.mem_cons.1 hmem with rfl | hmem
      · exact ⟨List.mem_cons_self, hfirst⟩
      · obtain ⟨hkeys, hnew⟩ := ih hmem
        exact ⟨List.mem_cons_of_mem _ hkeys, fun hold => hnew (List.mem_cons_of_mem _ hold)⟩

theorem nodup_unrequested (requested : List Address) (keys : List (Key α)) :
    ((unrequested requested keys).map Key.address).Nodup := by
  induction keys generalizing requested with
  | nil => exact List.nodup_nil
  | cons first keys ih =>
    rw [unrequested]
    split
    · exact ih requested
    · rw [List.map_cons, List.nodup_cons]
      refine ⟨fun hmem => ?_, ih _⟩
      obtain ⟨key, hkey, hsame⟩ := List.mem_map.1 hmem
      exact (mem_of_mem_unrequested hkey).2 (hsame ▸ List.mem_cons_self)

theorem mem_requested_or_unrequested (requested : List Address) {keys : List (Key α)}
    {key : Key α} (hmem : key ∈ keys) :
    key.address ∈ requested ∨ key.address ∈ (unrequested requested keys).map Key.address := by
  induction keys generalizing requested with
  | nil => cases hmem
  | cons first keys ih =>
    rw [unrequested]
    split
    · rename_i hold
      rcases List.mem_cons.1 hmem with rfl | hmem
      · exact .inl hold
      · exact ih requested hmem
    · rw [List.map_cons]
      rcases List.mem_cons.1 hmem with rfl | hmem
      · exact .inr List.mem_cons_self
      · rcases ih (first.address :: requested) hmem with hold | hnew
        · rcases List.mem_cons.1 hold with hsame | hold
          · exact .inr (hsame ▸ List.mem_cons_self)
          · exact .inl hold
        · exact .inr (List.mem_cons_of_mem _ hnew)

/-! ## Which pages there are -/

/-- The page at an address. -/
def pageOf (source : Source) (a : Address) : Option Page :=
  match source a with
  | .ok text =>
    match Page.parse text with
    | .ok page => some page
    | .error _ => none
  | .error _ => none

theorem pageOf_eq_some_iff {source : Source} {a : Address} {page : Page} :
    pageOf source a = some page ↔ ∃ text, source a = .ok text ∧ Page.parse text = .ok page := by
  unfold pageOf
  cases source a with
  | error trouble => simp
  | ok text => cases hpage : Page.parse text <;> simp [hpage]

variable [Coordinate α]

/-- The page at `a` is fetched, read and merged without fault, and has a subtree at `b`. -/
def PointsTo (source : Source) (root : Box α) (a b : Address) : Prop :=
  ∃ text page, source a = .ok text ∧ Page.parse text = .ok page ∧
    (∀ h : Hierarchy α, ∃ keys, (h.mergePage root page).2 = .ok keys) ∧
    (b, .subtree) ∈ page.toList

/-- The root's page, and every page that a reachable one points to. -/
inductive Reachable (source : Source) (root : Box α) : Address → Prop where
  | root : Reachable source root Address.root
  | next {a b : Address} (ha : Reachable source root a) (hb : PointsTo source root a b) :
      Reachable source root b

theorem subtrees_eq_ok_iff {root : Box α} {page : Page} {keys : List (Key α)} :
    page.subtrees root = .ok keys ↔ (∀ e ∈ page.toList, e.1.OfCell) ∧
      keys = (page.toList.filter (fun e => e.2 = .subtree)).map
        (fun e => Hierarchy.keyAt root e.1) :=
  Hierarchy.mergePage_eq_ok_iff

theorem pointsTo_iff {source : Source} {root : Box α} {a b : Address} :
    PointsTo source root a b ↔ ∃ page keys, pageOf source a = some page ∧
      page.subtrees root = .ok keys ∧ b ∈ keys.map Key.address := by
  constructor
  · rintro ⟨text, page, htext, hpage, hmerges, hb⟩
    obtain ⟨keys, hkeys⟩ := hmerges Hierarchy.empty
    obtain ⟨hcells, hlist⟩ := subtrees_eq_ok_iff.1 hkeys
    refine ⟨page, keys, pageOf_eq_some_iff.2 ⟨text, htext, hpage⟩, hkeys, ?_⟩
    rw [hlist, List.map_map]
    exact List.mem_map.2
      ⟨_, List.mem_filter.2 ⟨hb, by simp⟩, Hierarchy.keyAt_address root (hcells _ hb)⟩
  · rintro ⟨page, keys, hpage, hkeys, hb⟩
    obtain ⟨text, htext, hpage⟩ := pageOf_eq_some_iff.1 hpage
    obtain ⟨hcells, hlist⟩ := subtrees_eq_ok_iff.1 hkeys
    refine ⟨text, page, htext, hpage, fun h => ⟨keys, ?_⟩, ?_⟩
    · rw [Hierarchy.mergePage_snd root page h Hierarchy.empty]
      exact hkeys
    · rw [hlist, List.map_map] at hb
      obtain ⟨e, he, rfl⟩ := List.mem_map.1 hb
      obtain ⟨hmem, hsubtree⟩ := List.mem_filter.1 he
      have haddress : (Hierarchy.keyAt root e.1).address = e.1 :=
        Hierarchy.keyAt_address root (hcells e hmem)
      rw [Function.comp_apply, haddress, ← of_decide_eq_true hsubtree]
      exact hmem

theorem PointsTo.ofCell {source : Source} {root : Box α} {a b : Address}
    (h : PointsTo source root a b) : b.OfCell := by
  obtain ⟨text, page, -, -, hmerges, hb⟩ := h
  obtain ⟨keys, hkeys⟩ := hmerges Hierarchy.empty
  exact (Hierarchy.mergePage_eq_ok_iff.1 hkeys).1 _ hb

theorem Reachable.ofCell {source : Source} {root : Box α} {a : Address}
    (h : Reachable source root a) : a.OfCell := by
  cases h with
  | root => decide
  | next ha hb => exact hb.ofCell

/-! ## The task of a page -/

/-- What the action of a number does in the task of a page. -/
inductive Effect (source : Source) (root : Box α) (a : Address) :
    Nat → Workspace α → Workspace α → Prop where
  | fetch (w : Workspace α) : Effect source root a 0 w (w.noteFetch a)
  | merge {page : Page} (hpage : pageOf source a = some page) (w : Workspace α) :
      Effect source root a 1 w (w.mergePage root page)
  | discover {page : Page} {keys : List (Key α)} (hpage : pageOf source a = some page)
      (hkeys : page.subtrees root = .ok keys) (w : Workspace α) :
      Effect source root a 2 w (w.discover keys)

theorem Effect.fetched {source : Source} {root : Box α} {a : Address} {k : Nat}
    {w w' : Workspace α} (h : Effect source root a k w w') :
    (w'.fetched : Multiset Address) = if k = 0 then a ::ₘ w.fetched else w.fetched := by
  cases h with
  | fetch => exact Multiset.coe_eq_coe.2 (List.perm_append_singleton a w.fetched)
  | merge => rfl
  | discover => rfl

/-- The keys found are those that the page points to, and the third action finds them. -/
theorem Effect.discovered {source : Source} {root : Box α} {a : Address} {k : Nat}
    {w w' : Workspace α} (h : Effect source root a k w w') :
    ∃ keys, w'.discovered = w.discovered ++ keys ∧
      (∀ b ∈ keys.map Key.address, PointsTo source root a b) ∧
      (k = 2 → ∀ b, PointsTo source root a b → b ∈ keys.map Key.address) := by
  cases h with
  | fetch => exact ⟨[], by simp [Workspace.noteFetch], nofun, nofun⟩
  | merge => exact ⟨[], by simp [Workspace.mergePage], nofun, nofun⟩
  | @discover page keys hpage hkeys =>
    refine ⟨keys, rfl, fun b hb => pointsTo_iff.2 ⟨page, keys, hpage, hkeys, hb⟩,
      fun _ b hb => ?_⟩
    obtain ⟨page', keys', hpage', hkeys', hb⟩ := pointsTo_iff.1 hb
    cases hpage.symm.trans hpage'
    cases hkeys.symm.trans hkeys'
    exact hb

/-- The three forms of a page's task. -/
inductive TaskForm (source : Source) (root : Box α) (a : Address) :
    Pool.Task (Workspace α) → Prop where
  | unread {trouble : Trouble} (hpage : pageOf source a = none) :
      TaskForm source root a ⟨[fun w => some (w.noteFetch a)], some trouble⟩
  | unmerged {page : Page} {fault : Fault} (hpage : pageOf source a = some page)
      (hfault : page.subtrees root = .error fault) :
      TaskForm source root a
        ⟨[fun w => some (w.noteFetch a), fun w => some (w.mergePage root page)],
          some (.ofFault fault)⟩
  | merged {page : Page} {keys : List (Key α)} (hpage : pageOf source a = some page)
      (hkeys : page.subtrees root = .ok keys) :
      TaskForm source root a
        ⟨[fun w => some (w.noteFetch a), fun w => some (w.mergePage root page),
          fun w => some (w.discover keys)], none⟩

theorem taskForm (source : Source) (root : Box α) (a : Address) :
    TaskForm source root a (pageTask source root a) := by
  unfold pageTask
  cases hsource : source a with
  | error trouble => exact .unread (by simp only [pageOf, hsource])
  | ok text =>
    cases hparse : Page.parse text with
    | error fault =>
      simp only [hparse]
      exact .unread (by simp only [pageOf, hsource, hparse])
    | ok page =>
      have hpage : pageOf source a = some page := pageOf_eq_some_iff.2 ⟨text, hsource, hparse⟩
      cases hkeys : page.subtrees root with
      | error fault =>
        simp only [hparse, hkeys]
        exact .unmerged hpage hkeys
      | ok keys =>
        simp only [hparse, hkeys]
        exact .merged hpage hkeys

/-- Every action of the task can always be done, and does what its number says. -/
theorem apply_action {source : Source} {root : Box α} {a : Address} {k : Nat}
    {action : Workspace α → Option (Workspace α)}
    (haction : (pageTask source root a).actions[k]? = some action) (w : Workspace α) :
    ∃ w', action w = some w' ∧ Effect source root a k w w' := by
  have hform := taskForm source root a
  generalize pageTask source root a = task at hform haction
  cases hform with
  | unread hpage =>
    match k, haction with
    | 0, rfl => exact ⟨_, rfl, .fetch w⟩
  | unmerged hpage hfault =>
    match k, haction with
    | 0, rfl => exact ⟨_, rfl, .fetch w⟩
    | 1, rfl => exact ⟨_, rfl, .merge hpage w⟩
  | merged hpage hkeys =>
    match k, haction with
    | 0, rfl => exact ⟨_, rfl, .fetch w⟩
    | 1, rfl => exact ⟨_, rfl, .merge hpage w⟩
    | 2, rfl => exact ⟨_, rfl, .discover hpage hkeys w⟩

theorem length_actions_mem (source : Source) (root : Box α) (a : Address) :
    0 < (pageTask source root a).actions.length ∧
      (pageTask source root a).actions.length ≤ 3 := by
  have hform := taskForm source root a
  generalize pageTask source root a = task at hform
  cases hform <;> simp

theorem one_lt_length_actions_iff {source : Source} {root : Box α} {a : Address} :
    1 < (pageTask source root a).actions.length ↔ ∃ page, pageOf source a = some page := by
  have hform := taskForm source root a
  generalize pageTask source root a = task at hform
  cases hform with
  | unread hpage => simp [hpage]
  | unmerged hpage hfault => simp [hpage]
  | merged hpage hkeys => simp [hpage]

theorem PointsTo.length_actions {source : Source} {root : Box α} {a b : Address}
    (h : PointsTo source root a b) : (pageTask source root a).actions.length = 3 := by
  obtain ⟨page, keys, hpage, hkeys, -⟩ := pointsTo_iff.1 h
  have hform := taskForm source root a
  generalize pageTask source root a = task at hform
  cases hform with
  | unread hnone => simp [hpage] at hnone
  | unmerged hpage' hfault =>
    cases hpage.symm.trans hpage'
    cases hkeys.symm.trans hfault
  | merged hpage hkeys => rfl

end PointTiles
