import PointTiles.Proofs.Pool.Step

/-! # What becomes of every task

Tasks are told apart by tickets: a task's ticket is the number of tasks taken before it. A ledger
keeps the history of a pool together with the ticket of each worker's task and the tickets of the
tasks that have ended, so that two tasks that do the same are still two tasks.

* `Ledger`, `Ledger.record`, `keep`: the ledger along a run.
* `Accounts`: the ledger agrees with the pool. Tasks are taken in the order in which they were
  accepted, and every ticket given out is with one worker or has ended, once.
* `accounts_of_keep`: it does so after any events.
-/

namespace PointTiles.Pool
set_option autoImplicit false

variable {σ : Type} {p q : Pool σ}

/-! ## Ledgers -/

/-- A history with tickets. -/
structure Ledger (σ : Type) extends History σ where
  /-- The ticket of each worker's task, by the worker's place. -/
  held : List (Option Nat)
  /-- The tickets of the tasks that have ended, in that order. -/
  returned : List Nat

namespace Ledger

def empty : Ledger σ := ⟨History.empty, [], []⟩

/-- The ledger after an event that happens to a pool. -/
def record (event : Event σ) (p : Pool σ) (l : Ledger σ) : Ledger σ where
  toHistory := l.toHistory.record event p
  held :=
    match event with
    | .take w => l.held.set w (some l.taken.length)
    | .finish w => l.held.set w none
    | .leave w => l.held.eraseIdx w
    | .start => List.replicate p.size none
    | _ => l.held
  returned :=
    match event with
    | .finish w => l.returned ++ (l.held[w]?.join).toList
    | _ => l.returned

end Ledger

/-- The pool and its ledger after a list of events, if they can happen in this order. -/
def keep : List (Event σ) → Pool σ → Ledger σ → Option (Pool σ × Ledger σ)
  | [], p, l => some (p, l)
  | event :: events, p, l =>
    match p.step event with
    | some next => keep events next (l.record event p)
    | none => none

/-- A worker and the ticket of its task. -/
inductive Holds (taken : List (Task σ)) : Worker σ → Option Nat → Prop where
  | idle : Holds taken .idle none
  | busy {task : Task σ} {rest : List (σ → Option σ)} {ticket : Nat}
      (htask : taken[ticket]? = some task) (hrest : rest <:+ task.actions) :
      Holds taken (.busy task rest) (some ticket)

/-- The ledger agrees with the pool. -/
structure Accounts (p : Pool σ) (l : Ledger σ) : Prop where
  fifo : l.accepted = l.taken ++ p.queue
  crew : List.Forall₂ (Holds l.taken) p.workers l.held
  once : (l.returned ++ l.held.filterMap id).Perm (List.range l.taken.length)
  ended : l.returned.map (l.taken[·]?) = l.ended.map some

/-! ## Events and runs -/

theorem Holds.more {taken : List (Task σ)} {worker : Worker σ} {ticket : Option Nat}
    (h : Holds taken worker ticket) (task : Task σ) : Holds (taken ++ [task]) worker ticket := by
  cases h with
  | idle => exact .idle
  | busy htask hrest =>
    refine .busy ?_ hrest
    obtain ⟨hlt, -⟩ := List.getElem?_eq_some_iff.1 htask
    rwa [List.getElem?_append_left hlt]

theorem filterMap_id_none (before after : List (Option Nat)) :
    (before ++ none :: after).filterMap id = (before ++ after).filterMap id := by
  simp

theorem filterMap_id_some (tickets : List Nat) (before after : List (Option Nat)) (ticket : Nat) :
    (tickets ++ (before ++ some ticket :: after).filterMap id).Perm
      (ticket :: (tickets ++ (before ++ after).filterMap id)) := by
  simp only [List.filterMap_append, List.filterMap_cons, id_eq, ← List.append_assoc]
  exact List.perm_middle

theorem Accounts.step {l : Ledger σ} {event : Event σ} (hl : Accounts p l)
    (hstep : p.step event = some q) : Accounts q (l.record event p) := by
  obtain ⟨hfifo, hcrew, honce, hended⟩ := hl
  cases event with
  | submit task =>
    obtain ⟨-, rfl⟩ := step_submit.1 hstep
    refine ⟨?_, hcrew, honce, hended⟩
    simp [Ledger.record, History.record, hfifo]
  | take w =>
    obtain ⟨task, queue, hidle, hqueue, rfl⟩ := step_take.1 hstep
    obtain ⟨before, after, ticket, before', after', hworkers, hheld, rfl, hlen, hbefore, hholds,
      hafter⟩ := Places.forall₂_split hcrew hidle
    cases hholds
    have htaken : (l.record (.take before.length) p).taken = l.taken ++ [task] := by
      simp [Ledger.record, History.record, hqueue]
    have hheld' : (l.record (.take before.length) p).held =
        before' ++ some l.taken.length :: after' := by
      simp only [Ledger.record, hheld, ← hlen, Places.set_split]
    refine ⟨?_, ?_, ?_, ?_⟩
    · rw [htaken, List.append_assoc, List.singleton_append, ← hqueue]
      exact hfifo
    · rw [htaken, hheld']
      simp only [hworkers, Places.set_split]
      refine List.rel_append (hbefore.imp (fun _ _ h => h.more task))
        (.cons ?_ (hafter.imp (fun _ _ h => h.more task)))
      exact .busy (by simp) (List.suffix_refl _)
    · rw [htaken, hheld', List.length_append, List.length_singleton, List.range_succ]
      rw [hheld, filterMap_id_none] at honce
      exact (filterMap_id_some _ _ _ _).trans ((honce.cons _).trans (List.perm_append_singleton _ _).symm)
    · rw [htaken]
      refine Eq.trans (List.map_congr_left (fun ticket hticket => ?_)) hended
      have hlt := List.mem_range.1 (honce.mem_iff.1 (List.mem_append_left _ hticket))
      exact List.getElem?_append_left hlt
  | act w =>
    obtain ⟨task, action, rest, shared, hbusy, -, rfl⟩ := step_act.1 hstep
    obtain ⟨before, after, ticket, before', after', hworkers, hheld, rfl, hlen, hbefore, hholds,
      hafter⟩ := Places.forall₂_split hcrew hbusy
    refine ⟨hfifo, ?_, honce, hended⟩
    simp only [hworkers, Places.set_split]
    cases hholds with
    | busy htask hrest =>
      have hrest' : rest <:+ task.actions := (List.suffix_cons _ _).trans hrest
      change List.Forall₂ _ _ l.held
      rw [hheld]
      exact List.rel_append hbefore (.cons (.busy htask hrest') hafter)
  | finish w =>
    obtain ⟨task, hbusy, rfl⟩ := step_finish.1 hstep
    obtain ⟨before, after, ticket, before', after', hworkers, hheld, rfl, hlen, hbefore, hholds,
      hafter⟩ := Places.forall₂_split hcrew hbusy
    cases hholds with
    | @busy _ _ ticket htask hrest =>
      have hheld' : (l.record (.finish before.length) p).held = before' ++ none :: after' := by
        simp only [Ledger.record, hheld, ← hlen, Places.set_split]
      have hreturned : (l.record (.finish before.length) p).returned = l.returned ++ [ticket] := by
        simp [Ledger.record, hheld, ← hlen]
      have hended' : (l.record (.finish before.length) p).ended = l.ended ++ [task] := by
        simp [Ledger.record, History.record, hbusy]
      have hsame : (l.record (.finish before.length) p).taken = l.taken := by
        simp [Ledger.record, History.record, hbusy]
      refine ⟨?_, ?_, ?_, ?_⟩
      · simpa [Ledger.record, History.record, hbusy, conclude] using hfifo
      · rw [hsame, hheld']
        simp only [conclude, hworkers, Places.set_split]
        exact List.rel_append hbefore (.cons .idle hafter)
      · rw [hsame, hheld', hreturned, filterMap_id_none, List.append_assoc]
        rw [hheld] at honce
        exact List.perm_middle.trans ((filterMap_id_some _ _ _ _).symm.trans honce)
      · rw [hsame, hreturned, hended', List.map_append, List.map_append, hended]
        simp [htask]
  | leave w =>
    obtain ⟨hidle, -, -, rfl⟩ := step_leave.1 hstep
    obtain ⟨before, after, ticket, before', after', hworkers, hheld, rfl, hlen, hbefore, hholds,
      hafter⟩ := Places.forall₂_split hcrew hidle
    cases hholds
    have hheld' : (l.record (.leave before.length) p).held = before' ++ after' := by
      simp only [Ledger.record, hheld, ← hlen, Places.eraseIdx_split]
    refine ⟨hfifo, ?_, ?_, hended⟩
    · rw [hheld']
      simp only [hworkers, Places.eraseIdx_split]
      exact List.rel_append hbefore hafter
    · rw [hheld']
      rw [hheld, filterMap_id_none] at honce
      exact honce
  | clearErrors =>
    obtain rfl := step_clearErrors.1 hstep
    exact ⟨hfifo, hcrew, honce, hended⟩
  | halt =>
    obtain ⟨-, rfl⟩ := step_halt.1 hstep
    exact ⟨hfifo, hcrew, honce, hended⟩
  | start =>
    obtain ⟨⟨-, hworkers⟩, rfl⟩ := step_start.1 hstep
    rw [hworkers, List.forall₂_nil_left_iff] at hcrew
    have hheld : (l.record .start p).held = List.replicate p.size none := rfl
    refine ⟨hfifo, ?_, ?_, hended⟩
    · rw [hheld]
      exact Places.forall₂_replicate .idle p.size
    · rw [hheld, List.filterMap_replicate_of_none rfl]
      rwa [hcrew] at honce
  | resize size =>
    obtain ⟨-, rfl⟩ := step_resize.1 hstep
    exact ⟨hfifo, hcrew, honce, hended⟩

theorem accounts_stopped (size capacity : Nat) (shared : σ) :
    Accounts (stopped size capacity shared) Ledger.empty :=
  ⟨rfl, .nil, List.Perm.refl _, rfl⟩

theorem accounts_of_keep {l l' : Ledger σ} {events : List (Event σ)} (hl : Accounts p l)
    (hkeep : keep events p l = some (q, l')) : Accounts q l' := by
  induction events generalizing p l with
  | nil =>
    simp only [keep, Option.some.injEq, Prod.mk.injEq] at hkeep
    obtain ⟨rfl, rfl⟩ := hkeep
    exact hl
  | cons event events ih =>
    rw [keep] at hkeep
    split at hkeep
    · rename_i next hnext
      exact ih (hl.step hnext) hkeep
    · cases hkeep

/-- Every run of a pool has a ledger. -/
theorem exists_keep {events : List (Event σ)} (l : Ledger σ) (hrun : run events p = some q) :
    ∃ l', keep events p l = some (q, l') := by
  induction events generalizing p l with
  | nil =>
    simp only [run, Option.some.injEq] at hrun
    exact ⟨l, by rw [keep, hrun]⟩
  | cons event events ih =>
    obtain ⟨next, hnext, hrest⟩ := Option.bind_eq_some_iff.1 hrun
    obtain ⟨l', hkeep⟩ := ih (l.record event p) hrest
    exact ⟨l', by simp only [keep, hnext, hkeep]⟩

/-- In every state that a pool can come to, the tasks accepted are those taken followed by those in
the queue; a worker is busy exactly when it holds a ticket, with the task of that ticket; every
ticket given out is held by one worker or has come back, once; and the counter is the number of
tasks being done, so it is never taken below zero. The queue keeps to its limit. -/
theorem every_task_accounted {size capacity : Nat} {shared : σ} {events : List (Event σ)}
    (hrun : run events (stopped size capacity shared) = some p) :
    ∃ l : Ledger σ, keep events (stopped size capacity shared) Ledger.empty = some (p, l) ∧
      l.accepted = l.taken ++ p.queue ∧
      List.Forall₂ (Holds l.taken) p.workers l.held ∧
      (l.returned ++ l.held.filterMap id).Perm (List.range l.taken.length) ∧
      l.returned.map (l.taken[·]?) = l.ended.map some ∧
      p.outstanding = p.executing.length ∧ p.outstanding ≤ p.workers.length ∧
      (∀ (w : Nat) task rest, p.workers[w]? = some (.busy task rest) → 0 < p.outstanding) ∧
      p.queue.length ≤ max capacity 1 := by
  obtain ⟨l, hkeep⟩ := exists_keep Ledger.empty hrun
  obtain ⟨hfifo, hcrew, honce, hended⟩ :=
    accounts_of_keep (accounts_stopped size capacity shared) hkeep
  have hsound := sound_of_run hrun
  have hcapacity : p.capacity = max capacity 1 :=
    run_induction (fun hp hstep => (step_capacity hstep).trans hp) rfl hrun
  refine ⟨l, hkeep, hfifo, hcrew, honce, hended, hsound.outstanding, ?_, ?_, ?_⟩
  · rw [hsound.outstanding]
    exact length_executing_le p
  · intro w task rest hbusy
    rw [hsound.outstanding, length_executing, List.countP_pos_iff]
    exact ⟨_, List.mem_of_getElem? hbusy, rfl⟩
  · rw [← hcapacity]
    exact hsound.room

/-- Two workers and a queue of one place: the second task is done while the first still is, and the
third takes the place that the second has left. -/
theorem every_task_accounted_interleaved :
    let task : Task Unit := ⟨[], none⟩
    let events : List (Event Unit) := [.start, .submit task, .take 0, .submit task, .take 1,
      .submit task, .finish 1, .take 1]
    ∃ p l, keep events (stopped 2 0 ()) Ledger.empty = some (p, l) ∧ l.taken.length = 3 ∧
      l.returned = [1] ∧ l.held = [some 0, some 2] ∧ p.outstanding = 2 ∧
      (l.returned ++ l.held.filterMap id).Perm (List.range l.taken.length) ∧
      p.queue.length ≤ max 0 1 := by
  intro task events
  have hrun : run events (stopped 2 0 ()) = some _ := rfl
  obtain ⟨l, hkeep, -, -, honce, -, -, -, -, hroom⟩ := every_task_accounted hrun
  refine ⟨_, l, hkeep, ?_⟩
  cases hkeep
  exact ⟨rfl, rfl, rfl, rfl, honce, hroom⟩

end PointTiles.Pool
