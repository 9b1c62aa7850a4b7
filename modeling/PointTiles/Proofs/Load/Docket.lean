import Mathlib.Data.Multiset.AddSub
import Mathlib.Data.Multiset.MapFold
import PointTiles.Proofs.Load.Pages
import PointTiles.Proofs.Pool.Moves

/-! # The docket of a load

A docket says how far each page of a load has come, and forgets who works on it: which worker, or
which place in the queue. It is what all schedules have in common.

* `Docket`, `Docket.Step`: dockets, and what can happen to them.
* `Discreet`: what is left of a task of somebody else, which ends and does not touch the load.
* `Staff`: the tasks in a pool are those of a docket and discreet ones.
* `Event.isOwn`, `exists_step_of_step`: while only the caller and the workers move, every move of a
  load is a step of its docket.
-/

namespace PointTiles
set_option autoImplicit false

variable {α : Type} [Coordinate α]

/-! ## Dockets -/

/-- How far a load has come. -/
structure Docket (α : Type) where
  phase : Phase α
  requested : List Address
  /-- The pages whose tasks are in the pool, with the number of actions done. -/
  underway : Multiset (Address × Nat)
  /-- The pages whose tasks have ended. -/
  done : Multiset Address
  workspace : Workspace α
  errors : List String
  errorsBefore : Nat

/-- The message that the task of a page leaves. -/
def pageMessage? (source : Source) (root : Box α) (a : Address) : Option String :=
  (pageTask source root a).trouble.map Trouble.message

/-- The result with these messages. -/
def Load.report (messages : List String) : Except Fault Unit :=
  if messages.isEmpty then .ok () else .error (.taskFailures messages)

/-- What can happen to a docket. Where there are tasks of others, they may leave messages, and
change what the tasks of the load do not keep count of. -/
inductive Docket.Step (source : Source) (root : Box α) (others : Prop) :
    Docket α → Docket α → Prop where
  | rest (d : Docket α) : Step source root others d d
  | elsewhere {d : Docket α} {w : Workspace α} {errors : List String} (hothers : others)
      (hfetched : w.fetched = d.workspace.fetched)
      (hdiscovered : w.discovered = d.workspace.discovered) :
      Step source root others d { d with workspace := w, errors }
  | act {d : Docket α} {a : Address} {k : Nat} {underway : Multiset (Address × Nat)}
      {w : Workspace α} (hunderway : d.underway = (a, k) ::ₘ underway)
      (heffect : Effect source root a k d.workspace w)
      (hlength : k < (pageTask source root a).actions.length) :
      Step source root others d { d with underway := (a, k + 1) ::ₘ underway, workspace := w }
  | finish {d : Docket α} {a : Address} {underway : Multiset (Address × Nat)}
      (hunderway : d.underway = (a, (pageTask source root a).actions.length) ::ₘ underway) :
      Step source root others d
        { d with
          underway
          done := a ::ₘ d.done
          errors := d.errors ++ (pageMessage? source root a).toList }
  | begin {d : Docket α} (hphase : d.phase = .beginning) :
      Step source root others d
        { d with
          phase := .opening [Key.root root]
          workspace := { d.workspace with discovered := [], fetched := [] }
          errorsBefore := d.errors.length }
  | openRound {d : Docket α} {keys : List (Key α)} (hphase : d.phase = .opening keys)
      (hnew : unrequested d.requested keys ≠ []) :
      Step source root others d
        { d with
          phase := .submitting (unrequested d.requested keys)
          requested := d.requested ++ (unrequested d.requested keys).map Key.address }
  | openLast {d : Docket α} {keys : List (Key α)} (hphase : d.phase = .opening keys)
      (hold : unrequested d.requested keys = []) :
      Step source root others d { d with phase := .reporting }
  | submit {d : Docket α} {key : Key α} {keys : List (Key α)}
      (hphase : d.phase = .submitting (key :: keys)) :
      Step source root others d
        { d with phase := .submitting keys, underway := (key.address, 0) ::ₘ d.underway }
  | submitted {d : Docket α} (hphase : d.phase = .submitting []) :
      Step source root others d { d with phase := .awaiting }
  | await {d : Docket α} (hphase : d.phase = .awaiting) (hidle : d.underway = 0) :
      Step source root others d { d with phase := .gathering }
  | gather {d : Docket α} (hphase : d.phase = .gathering) :
      Step source root others d
        { d with
          phase := .opening d.workspace.discovered
          workspace := { d.workspace with discovered := [] } }
  | report {d : Docket α} (hphase : d.phase = .reporting) :
      Step source root others d
        { d with phase := .finished (Load.report (d.errors.drop d.errorsBefore)) }

/-! ## The tasks in a pool -/

/-- These actions can always be done and leave the notes of a load alone. -/
def Discreet (rest : List (Workspace α → Option (Workspace α))) : Prop :=
  ∀ action ∈ rest, ∀ w, ∃ w', action w = some w' ∧ w'.fetched = w.fetched ∧
    w'.discovered = w.discovered

/-- A task in the queue is that of a page, or one of somebody else. -/
inductive Queued (source : Source) (root : Box α) (others : Prop) :
    Pool.Task (Workspace α) → Option (Address × Nat) → Prop where
  | page (a : Address) : Queued source root others (pageTask source root a) (some (a, 0))
  | guest {task : Pool.Task (Workspace α)} (hothers : others) (hdiscreet : Discreet task.actions) :
      Queued source root others task none

/-- A worker is idle, or does the task of a page, or one of somebody else. -/
inductive Working (source : Source) (root : Box α) (others : Prop) :
    Pool.Worker (Workspace α) → Option (Address × Nat) → Prop where
  | idle : Working source root others .idle none
  | page {a : Address} {k : Nat} {rest : List (Workspace α → Option (Workspace α))}
      (hk : k ≤ (pageTask source root a).actions.length)
      (hrest : (pageTask source root a).actions.drop k = rest) :
      Working source root others (.busy (pageTask source root a) rest) (some (a, k))
  | guest {task : Pool.Task (Workspace α)} {rest : List (Workspace α → Option (Workspace α))}
      (hothers : others) (hdiscreet : Discreet rest) :
      Working source root others (.busy task rest) none

/-- What is marked in a list of places. -/
def marks {β : Type} (places : List (Option β)) : Multiset β := (places.filterMap id : List β)

section marks

variable {β : Type} (b : β) (l k : List (Option β))

@[simp] theorem marks_nil : marks ([] : List (Option β)) = 0 := rfl

@[simp] theorem marks_none : marks (none :: l) = marks l := rfl

@[simp] theorem marks_some : marks (some b :: l) = b ::ₘ marks l := rfl

theorem marks_map_none {γ : Type} (places : List γ) :
    marks (places.map fun _ => (none : Option β)) = 0 := by
  simp [marks]

@[simp] theorem marks_append : marks (l ++ k) = marks l + marks k := by
  rw [marks, List.filterMap_append, ← Multiset.coe_add]
  rfl

end marks

/-- The tasks in a pool are those of pages underway, and tasks of others where there are any. -/
def Staff (source : Source) (root : Box α) (others : Prop) (pool : Pool (Workspace α))
    (underway : Multiset (Address × Nat)) : Prop :=
  ∃ waiting working, List.Forall₂ (Queued source root others) pool.queue waiting ∧
    List.Forall₂ (Working source root others) pool.workers working ∧
    underway = marks waiting + marks working

/-- All that is left to do in a pool is discreet. -/
structure Considerate (pool : Pool (Workspace α)) : Prop where
  queue : ∀ task ∈ pool.queue, Discreet task.actions
  workers : ∀ task rest, Pool.Worker.busy task rest ∈ pool.workers → Discreet rest

/-- No page is underway where no place is marked. -/
theorem staff_zero {source : Source} {root : Box α} {others : Prop} {pool : Pool (Workspace α)}
    (hqueue : ∀ task ∈ pool.queue, Queued source root others task none)
    (hworkers : ∀ worker ∈ pool.workers, Working source root others worker none) :
    Staff source root others pool 0 := by
  refine ⟨pool.queue.map fun _ => none, pool.workers.map fun _ => none, ?_, ?_, ?_⟩
  · rwa [List.forall₂_map_right_iff, List.forall₂_same]
  · rwa [List.forall₂_map_right_iff, List.forall₂_same]
  · rw [marks_map_none, marks_map_none]
    rfl

theorem Considerate.staff {source : Source} {root : Box α} {pool : Pool (Workspace α)}
    (h : Considerate pool) : Staff source root True pool 0 := by
  refine staff_zero (fun task htask => .guest trivial (h.queue task htask))
    (fun worker hworker => ?_)
  cases worker with
  | idle => exact .idle
  | busy task rest => exact .guest trivial (h.workers task rest hworker)

theorem staff_of_isIdle {source : Source} {root : Box α} {others : Prop}
    {pool : Pool (Workspace α)} (hsound : pool.Sound) (hidle : pool.isIdle = true) :
    Staff source root others pool 0 := by
  obtain ⟨hqueue, hworkers⟩ := hsound.isIdle_iff.1 hidle
  refine staff_zero (by simp [hqueue]) (fun worker hworker => ?_)
  rw [hworkers worker hworker]
  exact .idle

omit [Coordinate α] in
theorem marks_of_idle {β : Type} {R : Pool.Worker (Workspace α) → Option β → Prop}
    {workers : List (Pool.Worker (Workspace α))} {working : List (Option β)}
    (h : List.Forall₂ R workers working) (hnone : ∀ mark, R .idle mark → mark = none)
    (hidle : ∀ worker ∈ workers, worker = .idle) : marks working = 0 := by
  induction h with
  | nil => rfl
  | cons hworker hrest ih =>
    obtain ⟨rfl, hothers⟩ := List.forall_mem_cons.1 hidle
    obtain rfl := hnone _ hworker
    exact ih hothers

/-- No page is underway in an idle pool. -/
theorem Staff.eq_zero {source : Source} {root : Box α} {others : Prop}
    {pool : Pool (Workspace α)} {underway : Multiset (Address × Nat)}
    (h : Staff source root others pool underway) (hsound : pool.Sound)
    (hidle : pool.isIdle = true) : underway = 0 := by
  obtain ⟨waiting, working, hqueue, hworkers, rfl⟩ := h
  obtain ⟨hempty, hall⟩ := hsound.isIdle_iff.1 hidle
  rw [hempty] at hqueue
  cases hqueue
  rw [marks_of_idle hworkers (fun mark hmark => by cases hmark; rfl) hall]
  rfl

/-! ## Moves of a load -/

namespace Load

/-- The moves of the caller and the workers. -/
def Event.isOwn : Event α → Bool
  | .caller => true
  | .pool event => event.isMove

/-- The docket of a load. -/
def docket (load : Load α) (underway : Multiset (Address × Nat)) (done : Multiset Address) :
    Docket α :=
  ⟨load.phase, load.requested, underway, done, load.pool.shared, load.pool.errors,
    load.errorsBefore⟩

/-- A load on a running pool whose tasks are known. -/
structure Steady (source : Source) (root : Box α) (others : Prop) (load : Load α)
    (underway : Multiset (Address × Nat)) : Prop where
  sound : load.pool.Sound
  running : load.pool.running = true
  staff : Staff source root others load.pool underway

variable {source : Source} {root : Box α} {others : Prop} {load load' : Load α}
  {underway : Multiset (Address × Nat)}

theorem Steady.take {w : Nat} {pool : Pool (Workspace α)}
    (h : Steady source root others load underway) (hstep : load.pool.step (.take w) = some pool)
    (done : Multiset Address) :
    Docket.Step source root others (load.docket underway done)
        ({ load with pool }.docket underway done) ∧
      Steady source root others { load with pool } underway := by
  obtain ⟨hsound, hrunning, waiting, working, hqueue, hworkers, rfl⟩ := h
  have hsound' := hsound.step hstep
  obtain ⟨task, queue, hidle, hhead, rfl⟩ := Pool.step_take.1 hstep
  rw [hhead] at hqueue
  obtain ⟨before, after, mark, before', after', hcut, rfl, rfl, hlen, hbefore, hwork, hafter⟩ :=
    Places.forall₂_split hworkers hidle
  cases hwork
  refine ⟨.rest _, hsound', hrunning, ?_⟩
  cases hqueue with
  | @cons _ mark _ waiting hfirst hqueue =>
    refine ⟨waiting, before' ++ mark :: after', hqueue, ?_, ?_⟩
    · simp only [hcut, Places.set_split]
      refine List.rel_append hbefore (.cons ?_ hafter)
      cases hfirst with
      | page a => exact .page (Nat.zero_le _) rfl
      | guest hothers hdiscreet => exact .guest hothers hdiscreet
    -- The mark goes from the queue to the worker.
    · cases mark <;> simp

theorem Steady.act {w : Nat} {pool : Pool (Workspace α)}
    (h : Steady source root others load underway) (hstep : load.pool.step (.act w) = some pool)
    (done : Multiset Address) :
    ∃ underway', Docket.Step source root others (load.docket underway done)
        ({ load with pool }.docket underway' done) ∧
      Steady source root others { load with pool } underway' := by
  obtain ⟨hsound, hrunning, waiting, working, hqueue, hworkers, rfl⟩ := h
  have hsound' := hsound.step hstep
  obtain ⟨task, action, rest, shared, hbusy, haction, rfl⟩ := Pool.step_act.1 hstep
  obtain ⟨before, after, mark, before', after', hcut, rfl, rfl, hlen, hbefore, hwork, hafter⟩ :=
    Places.forall₂_split hworkers hbusy
  cases hwork with
  | @page a k _ hk hrest =>
    have hthis : (pageTask source root a).actions[k]? = some action := by
      rw [← List.head?_drop, hrest, List.head?_cons]
    obtain ⟨hlt, -⟩ := List.getElem?_eq_some_iff.1 hthis
    obtain ⟨shared', hdone, heffect⟩ := apply_action hthis load.pool.shared
    cases hdone.symm.trans haction
    refine ⟨(a, k + 1) ::ₘ (marks waiting + marks (before' ++ after')),
      .act (by simp [docket]) heffect hlt, hsound', hrunning, waiting,
      before' ++ some (a, k + 1) :: after', hqueue, ?_, by simp⟩
    simp only [hcut, Places.set_split]
    refine List.rel_append hbefore (.cons (.page hlt ?_) hafter)
    rw [← List.tail_drop, hrest, List.tail_cons]
  | guest hothers hdiscreet =>
    refine ⟨_, ?_, hsound', hrunning, waiting, before' ++ none :: after', hqueue, ?_, rfl⟩
    · obtain ⟨shared', hdone, hfetched, hdiscovered⟩ :=
        hdiscreet action List.mem_cons_self load.pool.shared
      cases hdone.symm.trans haction
      exact .elsewhere hothers hfetched hdiscovered
    · simp only [hcut, Places.set_split]
      refine List.rel_append hbefore (.cons (.guest hothers ?_) hafter)
      exact fun action haction => hdiscreet action (List.mem_cons_of_mem _ haction)

theorem Steady.finish {w : Nat} {pool : Pool (Workspace α)}
    (h : Steady source root others load underway) (hstep : load.pool.step (.finish w) = some pool)
    (done : Multiset Address) :
    ∃ underway' done', Docket.Step source root others (load.docket underway done)
        ({ load with pool }.docket underway' done') ∧
      Steady source root others { load with pool } underway' := by
  obtain ⟨hsound, hrunning, waiting, working, hqueue, hworkers, rfl⟩ := h
  have hsound' := hsound.step hstep
  obtain ⟨task, hbusy, rfl⟩ := Pool.step_finish.1 hstep
  obtain ⟨before, after, mark, before', after', hcut, rfl, rfl, hlen, hbefore, hwork, hafter⟩ :=
    Places.forall₂_split hworkers hbusy
  have hcrew : List.Forall₂ (Working source root others)
      (load.pool.conclude before.length task).workers (before' ++ none :: after') := by
    simp only [Pool.conclude, hcut, Places.set_split]
    exact List.rel_append hbefore (.cons .idle hafter)
  cases hwork with
  | @page a k _ hk hrest =>
    obtain rfl : k = (pageTask source root a).actions.length :=
      Nat.le_antisymm hk (List.drop_eq_nil_iff.1 hrest)
    exact ⟨marks waiting + marks (before' ++ after'), a ::ₘ done, .finish (by simp [docket]),
      hsound', hrunning, waiting, _, hqueue, hcrew, by simp⟩
  | guest hothers hdiscreet =>
    exact ⟨_, done, .elsewhere hothers rfl rfl, hsound', hrunning, waiting, _, hqueue, hcrew, rfl⟩

theorem Steady.caller (h : Steady source root others load underway)
    (hstep : load.callerStep source root = some load') (done : Multiset Address) :
    ∃ underway', Docket.Step source root others (load.docket underway done)
        (load'.docket underway' done) ∧ Steady source root others load' underway' := by
  obtain ⟨hsound, hrunning, hstaff⟩ := h
  unfold callerStep at hstep
  split at hstep
  next hphase =>
    cases hstep
    have hcleared := hsound.modifyShared fun w => { w with discovered := [], fetched := [] }
    exact ⟨underway, .begin hphase, hcleared, hrunning, hstaff⟩
  next keys hphase =>
    cases hstep
    refine ⟨underway, ?_, hsound, hrunning, hstaff⟩
    by_cases hnew : unrequested load.requested keys = []
    · have hlast : Docket.Step source root others (load.docket underway done)
          { load.docket underway done with phase := .reporting } := .openLast hphase hnew
      simpa [docket, hnew] using hlast
    · have hround : Docket.Step source root others (load.docket underway done)
          { load.docket underway done with
            phase := .submitting (unrequested load.requested keys)
            requested := load.requested ++ (unrequested load.requested keys).map Key.address } :=
        .openRound hphase hnew
      simpa [docket, hnew] using hround
  next hphase =>
    cases hstep
    exact ⟨underway, .submitted hphase, hsound, hrunning, hstaff⟩
  next key keys hphase =>
    simp only [Pool.submit?, hrunning, if_true] at hstep
    split at hstep
    next hrefused => cases hrefused
    next => cases hstep
    next pool hsubmitted =>
      cases hstep
      have hsubmit := Except.ok.inj hsubmitted
      have hsound' := hsound.step hsubmit
      obtain ⟨-, rfl⟩ := Pool.step_submit.1 hsubmit
      obtain ⟨waiting, working, hqueue, hworkers, rfl⟩ := hstaff
      exact ⟨_, .submit hphase, hsound', hrunning, waiting ++ [some (key.address, 0)], working,
        List.rel_append hqueue (.cons (.page key.address) .nil), hworkers,
        by simp only [docket, marks_append, marks_some, marks_nil, Multiset.add_cons,
          Multiset.cons_add, Multiset.add_zero]⟩
  next hphase =>
    obtain ⟨hidle, hload⟩ := Option.ite_none_right_eq_some.1 hstep
    cases hload
    exact ⟨underway, .await hphase (hstaff.eq_zero hsound hidle), hsound, hrunning, hstaff⟩
  next hphase =>
    cases hstep
    have hcleared := hsound.modifyShared fun w => { w with discovered := [] }
    exact ⟨underway, .gather hphase, hcleared, hrunning, hstaff⟩
  next hphase =>
    cases hstep
    exact ⟨underway, .report hphase, hsound, hrunning, hstaff⟩
  next => cases hstep

/-- Every move of the caller and the workers is a step of the docket. -/
theorem exists_step_of_step {event : Event α} (h : Steady source root others load underway)
    (hown : event.isOwn = true) (hstep : load.step source root event = some load')
    (done : Multiset Address) :
    ∃ underway' done', Docket.Step source root others (load.docket underway done)
        (load'.docket underway' done') ∧ Steady source root others load' underway' := by
  cases event with
  | caller =>
    obtain ⟨underway', hcaller⟩ := h.caller hstep done
    exact ⟨underway', done, hcaller⟩
  | pool event =>
    obtain ⟨pool, hpool, rfl⟩ := Option.map_eq_some_iff.1 hstep
    cases event with
    | take w => exact ⟨underway, done, h.take hpool done⟩
    | act w =>
      obtain ⟨underway', hact⟩ := h.act hpool done
      exact ⟨underway', done, hact⟩
    | finish w => exact h.finish hpool done
    | leave w =>
      obtain ⟨-, hstopped, -⟩ := Pool.step_leave.1 hpool
      exact absurd (h.running.symm.trans hstopped) (by decide)
    | _ => cases hown

end Load

end PointTiles
