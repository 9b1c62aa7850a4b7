import PointTiles.Load.Site
import PointTiles.Proofs.Bisection
import PointTiles.Proofs.Hierarchy.Contents
import PointTiles.Proofs.Load.Pages
import PointTiles.Proofs.Pool.Step
import PointTiles.Proofs.Selection

/-! # The keys of a hierarchy

Counts come into a hierarchy with pages, whose keys are descended from the root, and selections are
made by bisecting the root. Both find the same keys.

* `Key.eq_keyAt_of_follow`: what bisection finds at the address of a cell.
* `Hierarchy.Derived`, `Derived.mergePage`: the boxes in a hierarchy are those of its root's cells.
* `MergesOnly`, `Pool.MergesOnly`: what is left to do in a pool merges pages, if it changes the
  hierarchy at all.
* `Site.Kept`, `Kept.step`: what every move of a site keeps.
* `Site.stored_keys`: the keys stored, and those selected.
-/

namespace PointTiles
set_option autoImplicit false

-- Powers of numbers are those of the core library, whatever else is imported.
attribute [local instance (high)] instPowNat

variable {α : Type}

/-! ## Derived boxes -/

namespace Key

/-- What bisecting a root finds at the address of a cell is that cell. -/
theorem eq_keyAt_of_follow [Coordinate α] {root : Box α} {path : List Octant} {node : Key α}
    (hfollow : follow path (Key.root root) = .ok node) (hcell : node.address.OfCell) :
    node = Hierarchy.keyAt root node.address := by
  have hlength : path.length ≤ Address.maxDepth := by
    rw [length_of_follow_root hfollow]
    exact hcell.1
  obtain ⟨-, rfl⟩ := follow_eq_ok_iff.1 hfollow
  have hpath : ((Key.root root).along path).address.path = path := by
    rw [along_address]
    exact Address.path_along_root hlength
  rw [Hierarchy.keyAt, hpath]

end Key

namespace Hierarchy

variable [Coordinate α] {root : Box α} {h : Hierarchy α} {key : Key α}

/-- Every node has the address of a cell, and the box of that cell. -/
def Derived (root : Box α) (h : Hierarchy α) : Prop :=
  ∀ a node, h.nodes[a]? = some node → a.OfCell ∧ node.bounds = (keyAt root a).bounds

theorem derived_empty (root : Box α) : (empty : Hierarchy α).Derived root := by
  intro a node hnode
  simp [empty] at hnode

/-- Merging a page keeps the boxes, also where it stops half-way. -/
theorem Derived.mergePage (hd : h.Derived root) (page : Page) :
    (h.mergePage root page).1.Derived root := by
  intro a node hnode
  by_cases hentered : ∃ n, (a, .points n) ∈ page.sound
  · obtain ⟨n, hn⟩ := hentered
    have ha : a.OfCell := ofCell_of_mem_soundEntries hn
    rw [getElem?_mergePage_of_points hn] at hnode
    obtain rfl := Option.some.inj hnode
    refine ⟨ha, ?_⟩
    simp only [nodeWith, keptBounds, keyAt_address root ha]
    split
    next node hold => exact (hd a node hold).2
    next => rfl
  · rw [getElem?_mergePage_of_absent (not_exists.1 hentered)] at hnode
    exact hd a node hnode

theorem Derived.eq_keyAt (hd : h.Derived root) (hkey : key ∈ h.keys) :
    key.address.OfCell ∧ key = keyAt root key.address := by
  obtain ⟨node, hnode, hbounds⟩ := mem_keys_iff.1 hkey
  obtain ⟨hcell, hnode⟩ := hd _ _ hnode
  refine ⟨hcell, ?_⟩
  exact Key.eq_of_address_of_bounds (keyAt_address root hcell).symm (hbounds.trans hnode)

/-- A selection from the root finds keys that are stored. -/
theorem Derived.mem_keys_of_select (hd : h.Derived root) {query : Query α}
    (hkey : key ∈ h.select (Key.root root) query) : key ∈ h.keys := by
  obtain ⟨path, hr⟩ := (mem_select h _ query key).1 hkey
  have hworth := hr.worth path.length (Nat.le_refl _) key (by rw [List.take_length]; exact hr.leads)
  have hpos : h.count key ≠ 0 := by
    intro hzero
    have hlt := hworth.1
    rw [hzero] at hlt
    exact absurd hlt (by decide)
  cases hnode : h.nodes[key.address]? with
  | none =>
    rw [count, hnode] at hpos
    exact absurd rfl hpos
  | some node =>
    obtain ⟨hcell, hbounds⟩ := hd _ _ hnode
    have hsame := Key.eq_keyAt_of_follow hr.leads hcell
    exact mem_keys_iff.2 ⟨node, hnode, (congrArg Key.bounds hsame).trans hbounds.symm⟩

end Hierarchy

/-! ## Tasks that merge pages -/

section

variable [Coordinate α] {source : Source} {root : Box α}

/-- The hierarchy is as it was, or a page has been merged into it. -/
def Merged (root : Box α) (h h' : Hierarchy α) : Prop :=
  h' = h ∨ ∃ page, h' = (h.mergePage root page).1

theorem Hierarchy.Derived.merged {h h' : Hierarchy α} (hd : h.Derived root)
    (hmerged : Merged root h h') : h'.Derived root := by
  rcases hmerged with rfl | ⟨page, rfl⟩
  · exact hd
  · exact hd.mergePage page

/-- All that these actions do to a hierarchy is to merge pages. -/
def MergesOnly (root : Box α) (rest : List (Workspace α → Option (Workspace α))) : Prop :=
  ∀ action ∈ rest, ∀ w w', action w = some w' → Merged root w.hierarchy w'.hierarchy

theorem mergesOnly_pageTask (source : Source) (root : Box α) (a : Address) :
    MergesOnly root (pageTask source root a).actions := by
  intro action haction w w' hdone
  obtain ⟨k, hk⟩ := List.mem_iff_getElem?.1 haction
  obtain ⟨w'', hdone', heffect⟩ := apply_action hk w
  cases hdone'.symm.trans hdone
  cases heffect with
  | fetch => exact .inl rfl
  | merge => exact .inr ⟨_, rfl⟩
  | discover => exact .inl rfl

/-- All that the tasks in a pool have still to do to a hierarchy is to merge pages. -/
structure Faithful (root : Box α) (pool : Pool (Workspace α)) : Prop where
  queue : ∀ task ∈ pool.queue, MergesOnly root task.actions
  workers : ∀ task rest, .busy task rest ∈ pool.workers → MergesOnly root rest

namespace Faithful

variable {pool pool' : Pool (Workspace α)} {w : Nat}

/-- A worker goes on to what is faithful as well. -/
theorem set (h : Faithful root pool) {worker : Pool.Worker (Workspace α)}
    (hworker : ∀ task rest, worker = .busy task rest → MergesOnly root rest) :
    ∀ task rest, .busy task rest ∈ pool.workers.set w worker → MergesOnly root rest := by
  intro task rest hmem
  rcases List.mem_or_eq_of_mem_set hmem with hold | hnew
  · exact h.workers task rest hold
  · exact hworker task rest hnew.symm

theorem step {event : Pool.Event (Workspace α)} (h : Faithful root pool)
    (hevent : ∀ task, event = .submit task → MergesOnly root task.actions)
    (hstep : pool.step event = some pool') :
    Faithful root pool' ∧ Merged root pool.shared.hierarchy pool'.shared.hierarchy := by
  cases event with
  | submit task =>
    obtain ⟨-, rfl⟩ := Pool.step_submit.1 hstep
    refine ⟨⟨fun other hmem => ?_, h.workers⟩, .inl rfl⟩
    rcases List.mem_append.1 hmem with hold | hnew
    · exact h.queue other hold
    · rw [List.mem_singleton.1 hnew]
      exact hevent task rfl
  | take w =>
    obtain ⟨task, queue, -, hqueue, rfl⟩ := Pool.step_take.1 hstep
    obtain ⟨hfirst, hothers⟩ := List.forall_mem_cons.1 (hqueue ▸ h.queue)
    refine ⟨⟨hothers, h.set fun other rest heq => ?_⟩, .inl rfl⟩
    cases heq
    exact hfirst
  | act w =>
    obtain ⟨task, action, rest, shared, hbusy, haction, rfl⟩ := Pool.step_act.1 hstep
    obtain ⟨hnow, hlater⟩ :=
      List.forall_mem_cons.1 (h.workers task _ (List.mem_of_getElem? hbusy))
    refine ⟨⟨h.queue, h.set fun other rest' heq => ?_⟩, hnow _ _ haction⟩
    cases heq
    exact hlater
  | finish w =>
    obtain ⟨task, -, rfl⟩ := Pool.step_finish.1 hstep
    exact ⟨⟨h.queue, h.set fun other rest heq => by cases heq⟩, .inl rfl⟩
  | leave w =>
    obtain ⟨-, -, -, rfl⟩ := Pool.step_leave.1 hstep
    exact ⟨⟨h.queue, fun task rest hmem => h.workers task rest (List.mem_of_mem_eraseIdx hmem)⟩,
      .inl rfl⟩
  | clearErrors =>
    obtain rfl := Pool.step_clearErrors.1 hstep
    exact ⟨⟨h.queue, h.workers⟩, .inl rfl⟩
  | halt =>
    obtain ⟨-, rfl⟩ := Pool.step_halt.1 hstep
    exact ⟨⟨h.queue, h.workers⟩, .inl rfl⟩
  | start =>
    obtain ⟨-, rfl⟩ := Pool.step_start.1 hstep
    refine ⟨⟨h.queue, fun task rest hmem => ?_⟩, .inl rfl⟩
    cases List.eq_of_mem_replicate hmem
  | resize size =>
    obtain ⟨-, rfl⟩ := Pool.step_resize.1 hstep
    exact ⟨⟨h.queue, h.workers⟩, .inl rfl⟩

end Faithful

/-! ## Loads that merge pages -/

/-- The caller submits a page, or leaves the tasks of the pool and the hierarchy alone. -/
theorem pool_of_callerStep {load load' : Load α} (h : load.callerStep source root = some load') :
    (∃ a, load.pool.step (.submit (pageTask source root a)) = some load'.pool) ∨
      load'.pool.queue = load.pool.queue ∧ load'.pool.workers = load.pool.workers ∧
        load'.pool.shared.hierarchy = load.pool.shared.hierarchy := by
  cases hphase : load.phase with
  | submitting keys =>
    cases keys with
    | nil =>
      simp only [Load.callerStep, hphase, Option.some.injEq] at h
      exact .inr (h ▸ ⟨rfl, rfl, rfl⟩)
    | cons key keys =>
      simp only [Load.callerStep, hphase] at h
      split at h
      next =>
        cases h
        exact .inr ⟨rfl, rfl, rfl⟩
      next => cases h
      next pool hsubmitted =>
        cases h
        exact .inl ⟨key.address, Pool.step_of_submit? hsubmitted⟩
  | awaiting =>
    simp only [Load.callerStep, hphase] at h
    obtain ⟨-, hload⟩ := Option.ite_none_right_eq_some.1 h
    cases hload
    exact .inr ⟨rfl, rfl, rfl⟩
  | finished result => simp [Load.callerStep, hphase] at h
  | _ =>
    simp only [Load.callerStep, hphase, Option.some.injEq] at h
    exact .inr (h ▸ ⟨rfl, rfl, rfl⟩)

/-- What others submit to the pool of a load merges pages, if it changes the hierarchy. -/
def Load.Event.MergesOnly (root : Box α) (event : Load.Event α) : Prop :=
  ∀ task, event = .pool (.submit task) → PointTiles.MergesOnly root task.actions

theorem Faithful.load {event : Load.Event α} {load load' : Load α}
    (h : Faithful root load.pool) (hevent : event.MergesOnly root)
    (hstep : load.step source root event = some load') :
    Faithful root load'.pool ∧
      Merged root load.pool.shared.hierarchy load'.pool.shared.hierarchy := by
  cases event with
  | pool event =>
    obtain ⟨pool, hpool, rfl⟩ := Option.map_eq_some_iff.1 hstep
    exact h.step (fun task htask => hevent task (congrArg _ htask)) hpool
  | caller =>
    rcases pool_of_callerStep hstep with ⟨a, hsubmit⟩ | ⟨hqueue, hworkers, hsame⟩
    · refine h.step (fun task htask => ?_) hsubmit
      cases htask
      exact mergesOnly_pageTask source root a
    · exact ⟨⟨hqueue ▸ h.queue, hworkers ▸ h.workers⟩, .inl hsame⟩

end

/-! ## Sites -/

namespace Site

variable [Coordinate α] {root : Box α} {site site' : Site α} {move : Move α}

/-- Whoever uses the pool of a load merges pages, if they change the hierarchy. -/
def Move.MergesOnly (root : Box α) : Move α → Prop
  | .merge _ => True
  | .begin _ pool => Faithful root pool
  | .load _ event => event.MergesOnly root

/-- The boxes in the hierarchy are derived, and all loads keep them so. -/
structure Kept (root : Box α) (site : Site α) : Prop where
  derived : site.hierarchy.Derived root
  faithful : ∀ entry ∈ site.loads, Faithful root entry.2.pool

theorem kept_empty (root : Box α) : Kept root (empty : Site α) :=
  ⟨Hierarchy.derived_empty root, nofun⟩

theorem Kept.step (h : Kept root site) (hmove : move.MergesOnly root)
    (hstep : site.step root move = some site') : Kept root site' := by
  cases move with
  | merge page =>
    cases hstep
    exact ⟨h.derived.mergePage page, h.faithful⟩
  | begin source pool =>
    cases hstep
    refine ⟨h.derived, fun entry hentry => ?_⟩
    rcases List.mem_append.1 hentry with hold | hnew
    · exact h.faithful entry hold
    · rw [List.mem_singleton.1 hnew]
      exact hmove
  | load i event =>
    rw [Site.step] at hstep
    split at hstep
    next source load hplace =>
      obtain ⟨load', hload, rfl⟩ := Option.map_eq_some_iff.1 hstep
      have hold : Faithful root load.pool := h.faithful _ (List.mem_of_getElem? hplace)
      have hbrought : Faithful root (bring site.hierarchy load).pool := ⟨hold.queue, hold.workers⟩
      obtain ⟨hfaithful, hmerged⟩ := hbrought.load hmove hload
      refine ⟨h.derived.merged hmerged, fun entry hentry => ?_⟩
      rcases List.mem_or_eq_of_mem_set hentry with hother | rfl
      · exact h.faithful entry hother
      · exact hfaithful
    next => cases hstep

theorem Kept.run {moves : List (Move α)} (h : Kept root site)
    (hmoves : ∀ move ∈ moves, Move.MergesOnly root move) (hrun : run root moves site = some site') :
    Kept root site' := by
  induction moves generalizing site with
  | nil => exact Option.some.inj hrun ▸ h
  | cons move moves ih =>
    obtain ⟨next, hnext, hrest⟩ := Option.bind_eq_some_iff.1 hrun
    obtain ⟨hfirst, hothers⟩ := List.forall_mem_cons.1 hmoves
    exact ih (h.step hfirst hnext) hothers hrest

/-- A hierarchy that was empty, and into which pages have been merged since, by loads or without
them, some of them half-way. The users of the pools do not change it otherwise; a task of theirs may
be that of a page in another load.

Every key stored is at the address of a cell, and it is the key, box included, that bisecting the
root along the directions to that cell finds. A selection from the root holds stored keys, and
whatever is stored at the address of one is that key, box included. -/
theorem stored_keys {moves : List (Move α)} (hmoves : ∀ move ∈ moves, Move.MergesOnly root move)
    (hrun : run root moves empty = some site) :
    (∀ key ∈ site.hierarchy.keys, key.address.depth.toNat ≤ 63 ∧
      (∀ axis, (key.address.cell.on axis).toNat < 2 ^ key.address.depth.toNat) ∧
      (∃ directions : List UInt8, (∀ n ∈ directions, n < 8) ∧
        Key.follow (directions.map Octant.ofByte) (Key.root root) = .ok key) ∧
      ∀ path node, Key.follow path (Key.root root) = .ok node →
        node.address = key.address → node = key) ∧
    ∀ query, ∀ key ∈ site.hierarchy.select (Key.root root) query,
      key ∈ site.hierarchy.keys ∧
        ∀ stored ∈ site.hierarchy.keys, stored.address = key.address → stored = key := by
  have hderived : site.hierarchy.Derived root := ((kept_empty root).run hmoves hrun).derived
  refine ⟨fun key hkey => ?_, fun query key hkey => ?_⟩
  · obtain ⟨hcell, hsame⟩ := hderived.eq_keyAt hkey
    obtain ⟨directions, hbytes, hpath⟩ := Octant.exists_bytes key.address.path
    refine ⟨hcell.1, hcell.2, ⟨directions, hbytes, ?_⟩, fun path node hfollow haddress => ?_⟩
    · have hlength : key.address.path.length ≤ Address.maxDepth := by
        rw [Address.length_path]
        exact hcell.1
      rw [hpath, Key.follow_root hlength]
      exact congrArg _ hsame.symm
    · have hnode := Key.eq_keyAt_of_follow hfollow (haddress ▸ hcell)
      rw [hnode, haddress, ← hsame]
  · have hstored := hderived.mem_keys_of_select hkey
    refine ⟨hstored, fun other hother haddress => ?_⟩
    rw [(hderived.eq_keyAt hother).2, haddress, ← (hderived.eq_keyAt hstored).2]

/-- A load of a page that points to another one. Somebody else's load submits that one to the same
pool; it stops at its second key, as does a page that is merged without a load. -/
theorem stored_keys_half_merged :
    let root : Box Rat := ⟨⟨0, 8⟩, ⟨0, 8⟩, ⟨0, 8⟩⟩
    let halfway : Page := ⟨.ofList [((⟨1, ⟨0, 0, 0⟩⟩ : Address), PageEntry.points 4),
      (⟨1, ⟨2, 0, 0⟩⟩, .points 9), (⟨2, ⟨0, 0, 0⟩⟩, .points 9)]⟩
    let source : Source := fun a =>
      if a = Address.root then .ok "\x7b\"0-0-0-0\": 5, \"1-0-0-0\": 2, \"1-1-0-0\": -1\x7d"
      else .ok "\x7b\"1-1-0-0\": 6, \"1-2-0-0\": 3\x7d"
    let guest : Pool.Task (Workspace Rat) := pageTask source root ⟨1, ⟨1, 0, 0⟩⟩
    let moves : List (Move Rat) := [.begin source (.create 1 2 (.ofHierarchy .empty)),
      .load 0 .caller, .load 0 .caller, .load 0 .caller, .load 0 (.pool (.submit guest)),
      .load 0 (.pool (.take 0)), .load 0 (.pool (.act 0)), .merge halfway,
      .load 0 (.pool (.act 0)), .load 0 (.pool (.act 0)), .load 0 (.pool (.finish 0)),
      .load 0 (.pool (.take 0)), .load 0 (.pool (.act 0)), .load 0 (.pool (.act 0)),
      .load 0 (.pool (.finish 0))]
    (∀ move ∈ moves, Move.MergesOnly root move) ∧
      ∃ site, run root moves empty = some site ∧
        site.hierarchy.toList.map (fun entry => (entry.1.address, entry.2)) =
          [(.root, 5), (⟨1, ⟨0, 0, 0⟩⟩, 2), (⟨1, ⟨1, 0, 0⟩⟩, 6)] ∧
        (∀ key ∈ site.hierarchy.keys, ∃ directions : List UInt8, (∀ n ∈ directions, n < 8) ∧
          Key.follow (directions.map Octant.ofByte) (Key.root root) = .ok key) ∧
        ∀ key ∈ site.hierarchy.select (Key.root root) ⟨none, none⟩, key ∈ site.hierarchy.keys := by
  intro root halfway source guest moves
  have hmoves : ∀ move ∈ moves, Move.MergesOnly root move := by
    have hpool : Faithful root (.create 1 2 (.ofHierarchy .empty)) :=
      ⟨nofun, fun task rest hmem => nomatch List.eq_of_mem_replicate hmem⟩
    have hguest : ∀ task, Load.Event.pool (.submit guest) = .pool (.submit task) →
        MergesOnly root task.actions := by
      rintro task htask
      cases htask
      exact mergesOnly_pageTask source root _
    simp only [moves, List.forall_mem_cons, List.not_mem_nil, false_imp_iff, implies_true, and_true]
    exact ⟨hpool, nofun, nofun, nofun, hguest, nofun, nofun, trivial, nofun, nofun, nofun, nofun,
      nofun, nofun, nofun⟩
  have hview : (run root moves empty).map (fun site =>
      site.hierarchy.toList.map fun entry => (entry.1.address, entry.2)) =
      some [(.root, 5), (⟨1, ⟨0, 0, 0⟩⟩, 2), (⟨1, ⟨1, 0, 0⟩⟩, 6)] := by
    decide +kernel
  obtain ⟨site, hrun, hlist⟩ := Option.map_eq_some_iff.1 hview
  obtain ⟨hstored, hselected⟩ := stored_keys hmoves hrun
  exact ⟨hmoves, site, hrun, hlist, fun key hkey => (hstored key hkey).2.2.1,
    fun key hkey => (hselected ⟨none, none⟩ key hkey).1⟩

end Site

end PointTiles
