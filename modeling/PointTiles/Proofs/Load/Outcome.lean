import PointTiles.Proofs.Load.Messages
import PointTiles.Proofs.Load.Writing

/-! # What a load comes to

On a pool that does nothing else, where the pages agree, the outcome of a load does not depend on
the number of workers, the length of the queue or the order in which the workers move.

* `Docket.Exact`, `Docket.Exact.step`: the messages and the hierarchy so far are those of the pages
  ended and merged so far.
* `Load.SameOutcome`: what two loads have in common.
* `Load.Unused`: a pool that does nothing.
-/

namespace PointTiles
set_option autoImplicit false

variable {α : Type}

/-! ## Messages and hierarchies -/

namespace Docket

variable [Coordinate α]

/-- The messages and the hierarchy are those of the pages so far. -/
structure Exact (source : Source) (root : Box α) (start : Hierarchy α) (before : List String)
    (d : Docket α) : Prop where
  messages : ∃ own, d.errors = before ++ own ∧
    (own : Multiset String) = d.done.filterMap (pageMessage? source root)
  offset : d.phase ≠ .beginning → d.errorsBefore = before.length
  written : Written source root start (d.past 1) d.workspace.hierarchy
  result : ∀ result, d.phase = .finished result →
    result = Load.report (d.errors.drop before.length)

variable {source : Source} {root : Box α} {start : Hierarchy α} {before : List String}
  {d d' : Docket α}

theorem exact_iff : Exact source root start before d ↔
    Told source root before d ∧ Written source root start (d.past 1) d.workspace.hierarchy :=
  ⟨fun h => ⟨⟨h.messages, h.offset, h.result⟩, h.written⟩,
    fun h => ⟨h.1.messages, h.1.offset, h.2, h.1.result⟩⟩

theorem exact_initial (pool : Pool (Workspace α)) :
    Exact source root pool.shared.hierarchy pool.errors ((Load.initial pool).docket 0 0) :=
  exact_iff.2 ⟨told_initial source root pool, .start_of_zero⟩

theorem written_act (hagree : PagesAgree source root) (hsound : Sound source root d) {a : Address}
    {k : Nat} {underway : Multiset (Address × Nat)} {w : Workspace α}
    (h : Written source root start (d.past 1) d.workspace.hierarchy)
    (hunderway : d.underway = (a, k) ::ₘ underway) (heffect : Effect source root a k d.workspace w) :
    Written source root start
      (past { d with underway := (a, k + 1) ::ₘ underway, workspace := w } 1) w.hierarchy := by
  rw [past_act hunderway]
  cases heffect with
  | fetch => exact h
  | merge hpage =>
    refine h.merge hagree hpage (fun b hb => ?_)
    rcases Multiset.mem_cons.1 hb with rfl | hb
    · exact hsound.reachable b (hsound.mem_requested (hunderway ▸ Multiset.mem_cons_self _ _))
    · exact hsound.reachable b (Multiset.mem_of_le (hsound.past_le 1) hb)
  | discover => exact h

theorem written_finish {a : Address} {underway : Multiset (Address × Nat)} {errors : List String}
    (h : Written source root start (d.past 1) d.workspace.hierarchy)
    (hunderway : d.underway = (a, (pageTask source root a).actions.length) ::ₘ underway) :
    Written source root start (past { d with underway, done := a ::ₘ d.done, errors } 1)
      d.workspace.hierarchy := by
  rw [past_finish hunderway]
  by_cases hread : 1 < (pageTask source root a).actions.length
  · rw [if_pos hread]
    exact h
  · -- A task of one action is that of a page that cannot be read.
    rw [if_neg hread]
    refine h.skip (Option.eq_none_iff_forall_ne_some.2 (fun page hpage => ?_))
    exact hread (one_lt_length_actions_iff.2 ⟨page, hpage⟩)

namespace Exact

theorem step (hagree : PagesAgree source root) (hsound : Sound source root d)
    (h : Exact source root start before d) (hstep : Docket.Step source root False d d') :
    Exact source root start before d' := by
  obtain ⟨htold, hwritten⟩ := exact_iff.1 h
  refine exact_iff.2 ⟨htold.step hsound hstep, ?_⟩
  cases hstep with
  | elsewhere hothers => exact hothers.elim
  | act hunderway heffect hlength => exact written_act hagree hsound hwritten hunderway heffect
  | finish hunderway => exact written_finish hwritten hunderway
  | submit hphase => simpa [past] using hwritten
  | _ => exact hwritten

end Exact

end Docket

/-! ## Outcomes -/

namespace Load

variable [Coordinate α]

/-- Both loads have returned and come to the same pages, messages and nodes. -/
structure SameOutcome (load load' : Load α) : Prop where
  fetched : load.pool.shared.fetched.Perm load'.pool.shared.fetched
  results : ∃ messages messages', load.result? = some (report messages) ∧
    load'.result? = some (report messages') ∧ messages.Perm messages'
  nodes : load.pool.shared.hierarchy.toList = load'.pool.shared.hierarchy.toList

/-- The pool runs and does nothing, and the hierarchy is this one. Its past may have left
messages. -/
structure Unused (start : Hierarchy α) (pool : Pool (Workspace α)) : Prop where
  past : ∃ size capacity shared events,
    Pool.run events (Pool.stopped size capacity shared) = some pool
  running : pool.running = true
  idle : pool.isIdle = true
  hierarchy : pool.shared.hierarchy = start

variable {source : Source} {root : Box α} {start : Hierarchy α} {pool : Pool (Workspace α)}
  {events : List (Event α)} {load : Load α}

theorem Unused.steady (h : Unused start pool) : Steady source root False (initial pool) 0 := by
  obtain ⟨size, capacity, shared, events, hpast⟩ := h.past
  have hsound := Pool.sound_of_run hpast
  exact ⟨hsound, h.running, staff_of_isIdle hsound h.idle⟩

theorem Unused.exists_run (h : Unused start pool) (source : Source) (root : Box α) :
    ∃ events, IsRun source root pool events (run source root pool) ∧
      (run source root pool).result?.isSome :=
  h.steady.exists_run

/-- The outcome, said without the order of the moves. -/
theorem Unused.outcome (h : Unused start pool) (hagree : PagesAgree source root)
    (hrun : IsRun source root pool events load) (hresult : load.result?.isSome) :
    ∃ requested : List Address, requested.Nodup ∧ (∀ a, a ∈ requested ↔ Reachable source root a) ∧
      load.pool.shared.fetched.Perm requested ∧
      (∃ messages, load.result? = some (report messages) ∧
        messages.Perm (requested.filterMap (pageMessage? source root))) ∧
      Written source root start requested load.pool.shared.hierarchy := by
  obtain ⟨underway, done, ⟨hsound, hexact⟩, -⟩ :=
    docket_of_run (motive := fun d => d.Sound source root ∧
        d.Exact source root pool.shared.hierarchy pool.errors)
      (fun hd hstep => ⟨hd.1.step hstep, hd.2.step hagree hd.1 hstep⟩) h.steady
      ⟨Docket.sound_initial source root pool, Docket.exact_initial pool⟩ hrun.1 hrun.2
  obtain ⟨result, hresult⟩ := Option.isSome_iff_exists.1 hresult
  have hphase := result?_eq_some_iff.1 hresult
  have hbegun : load.phase ≠ .beginning := by simp [hphase]
  obtain ⟨hmerged, hdone⟩ := hsound.past_eq hphase 1
  obtain ⟨own, herrors, hown⟩ := hexact.messages
  refine ⟨load.requested, hsound.nodup, hsound.mem_requested_iff hphase, ?_, ⟨own, ?_, ?_⟩, ?_⟩
  · exact Multiset.coe_eq_coe.1 ((hsound.fetched hbegun).trans (hsound.past_eq hphase 0).1)
  · rw [hresult, hexact.result result hphase, herrors, List.drop_left]
  · rw [hdone] at hown
    exact Multiset.coe_eq_coe.1 hown
  · rw [← h.hierarchy]
    exact hmerged ▸ hexact.written

/-- Where the pages agree, the outcome of a load is the same on every pool and in every order of
moves. Where all pages have only cells, the counts are those of the pages, and for other keys those
of the beginning. -/
theorem same_outcome (source : Source) (root : Box α) (start : Hierarchy α)
    (hagree : PagesAgree source root) {pool pool' : Pool (Workspace α)}
    (hpool : Unused start pool) (hpool' : Unused start pool') {events events' : List (Event α)}
    {load load' : Load α} (hrun : IsRun source root pool events load)
    (hrun' : IsRun source root pool' events' load') (hresult : load.result?.isSome)
    (hresult' : load'.result?.isSome) :
    SameOutcome load load' ∧
    ((∀ a page, pageOf source a = some page → ∀ e ∈ page.toList, e.1.OfCell) →
      ∀ key : Key α,
        (∀ n, (∃ a ∈ load.pool.shared.fetched, ∃ page, pageOf source a = some page ∧
          (key.address, .points n) ∈ page.toList) →
            load.pool.shared.hierarchy.count key = n) ∧
        ((∀ n, ∀ a ∈ load.pool.shared.fetched, ∀ page, pageOf source a = some page →
          (key.address, .points n) ∉ page.toList) →
            load.pool.shared.hierarchy.count key = start.count key)) := by
  obtain ⟨requested, hnodup, hreachable, hfetched, ⟨messages, hreport, hmessages⟩, hwritten⟩ :=
    hpool.outcome hagree hrun hresult
  obtain ⟨requested', hnodup', hreachable', hfetched', ⟨messages', hreport', hmessages'⟩,
    hwritten'⟩ := hpool'.outcome hagree hrun' hresult'
  have hperm : requested.Perm requested' :=
    (List.perm_ext_iff_of_nodup hnodup hnodup').2
      (fun a => (hreachable a).trans (hreachable' a).symm)
  constructor
  · refine ⟨hfetched.trans (hperm.trans hfetched'.symm), ⟨messages, messages', hreport, hreport',
      hmessages.trans ((hperm.filterMap _).trans hmessages'.symm)⟩, ?_⟩
    exact hwritten.toList_eq hwritten' (Multiset.coe_eq_coe.2 hperm)
  · intro hcells key
    have henters : ∀ n, Enters source requested key.address n ↔
        ∃ a ∈ load.pool.shared.fetched, ∃ page, pageOf source a = some page ∧
          (key.address, .points n) ∈ page.toList := by
      intro n
      refine exists_congr (fun a => and_congr hfetched.mem_iff.symm (exists_congr fun page => ?_))
      refine and_congr_right (fun hpage => ?_)
      rw [Page.sound_eq_toList (hcells a page hpage)]
    constructor
    · intro n hn
      exact hwritten.count_of_enters ((henters n).2 hn)
    · intro hnone
      refine hwritten.count_of_not_enters (fun n hn => ?_)
      obtain ⟨a, ha, page, hpage, hmem⟩ := (henters n).1 hn
      exact hnone n a ha page hpage hmem

/-- Every page gives the root seven points and points to one of its octants. -/
def uniform : Source := fun _ => .ok "\x7b\"0-0-0-0\": 7, \"1-1-0-0\": -1\x7d"

theorem pageOf_uniform : ∃ page, (∀ a, pageOf uniform a = some page) ∧
    (∀ e ∈ page.toList, e.1.OfCell) ∧ (Address.root, .points 7) ∈ page.toList := by
  have hread : (pageOf uniform Address.root).any (fun page =>
      (∀ e ∈ page.toList, e.1.OfCell) ∧ (Address.root, .points 7) ∈ page.toList) = true := by
    decide +kernel
  obtain ⟨page, hpage, hentries⟩ := (Option.any_eq_true _ _).1 hread
  exact ⟨page, fun _ => hpage, of_decide_eq_true hentries⟩

/-- One worker and a queue of one, against two workers, a longer queue and an earlier failure. -/
theorem same_outcome_uniform :
    PagesAgree uniform (Box.zero : Box Rat) ∧
    ∃ pool pool' : Pool (Workspace Rat),
      Unused .empty pool ∧ Unused .empty pool' ∧ pool.size = 1 ∧ pool'.size = 2 ∧
      SameOutcome (run uniform Box.zero pool) (run uniform Box.zero pool') ∧
      (run uniform Box.zero pool).pool.shared.hierarchy.count (Key.root Box.zero) = 7 := by
  obtain ⟨page, hpage, hcells, hroot⟩ := pageOf_uniform
  have hagree : PagesAgree uniform (Box.zero : Box Rat) := by
    intro a b page₁ page₂ _ _ hpage₁ hpage₂ c n m hn hm
    cases (hpage a).symm.trans hpage₁
    cases (hpage b).symm.trans hpage₂
    have hn := Std.TreeMap.mem_toList_iff_getElem?_eq_some.1 hn
    have hm := Std.TreeMap.mem_toList_iff_getElem?_eq_some.1 hm
    cases hn.symm.trans hm
    rfl
  have hpool : Unused .empty (Pool.create 1 1 (.ofHierarchy .empty) : Pool (Workspace Rat)) :=
    ⟨⟨1, 1, _, [.start], rfl⟩, rfl, rfl, rfl⟩
  have hpool' : Unused .empty
      { (Pool.create 2 3 (.ofHierarchy .empty) : Pool (Workspace Rat)) with
        errors := ["Unknown error"] } :=
    ⟨⟨2, 3, _, [.start, .submit ⟨[], some (.brokeOff none)⟩, .take 1, .finish 1], rfl⟩,
      rfl, rfl, rfl⟩
  obtain ⟨events, hrun, hresult⟩ := hpool.exists_run uniform Box.zero
  obtain ⟨events', hrun', hresult'⟩ := hpool'.exists_run uniform Box.zero
  obtain ⟨hsame, hcounts⟩ := same_outcome uniform Box.zero .empty hagree hpool hpool' hrun hrun'
    hresult hresult'
  refine ⟨hagree, _, _, hpool, hpool', rfl, rfl, hsame, ?_⟩
  obtain ⟨requested, -, hreachable, hfetched, -⟩ := hpool.outcome hagree hrun hresult
  have hmem := hfetched.mem_iff.2 ((hreachable Address.root).2 .root)
  have hall : ∀ a p, pageOf uniform a = some p → ∀ e ∈ p.toList, e.1.OfCell := by
    intro a p hp
    cases (hpage a).symm.trans hp
    exact hcells
  exact (hcounts hall (Key.root Box.zero)).1 7 ⟨Address.root, hmem, page, hpage _, hroot⟩

end Load

end PointTiles
