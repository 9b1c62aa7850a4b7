import PointTiles.Proofs.Pool.Moves

/-! # What one worker comes to

A single worker does the tasks in the order in which they came. So what it will have done is known
beforehand: the rest of its own task, then the tasks that wait, one after the other.

* `backlog`: these tasks, as far as they are not done.
* `performAll`, `drained`: the shared state and the messages when they are.
* `drained_of_step`: no move of the worker changes this, and `drained_submit`: a new task comes last.
-/

namespace PointTiles.Pool
set_option autoImplicit false

variable {σ : Type} {p q : Pool σ}

/-! ## Tasks one after the other -/

/-- Does the actions of a task, if they can be done. -/
def Task.perform (task : Task σ) (shared : σ) : Option σ :=
  task.actions.foldlM (fun shared action => action shared) shared

def Task.messages (task : Task σ) : List String := (task.trouble.map Trouble.message).toList

/-- Does tasks in order: the shared state and the messages then. -/
def performAll : List (Task σ) → σ × List String → Option (σ × List String)
  | [], s => some s
  | task :: tasks, (shared, errors) =>
    (task.perform shared).bind fun shared => performAll tasks (shared, errors ++ task.messages)

theorem performAll_append (tasks others : List (Task σ)) (s : σ × List String) :
    performAll (tasks ++ others) s = (performAll tasks s).bind (performAll others) := by
  induction tasks generalizing s with
  | nil => rfl
  | cons task tasks ih =>
    rw [List.cons_append, performAll, performAll, Option.bind_assoc]
    exact congrArg _ (funext fun shared => ih _)

/-! ## The tasks of a pool -/

/-- What is left of a worker's task. -/
def Worker.remainder : Worker σ → Option (Task σ)
  | .idle => none
  | .busy task rest => some ⟨rest, task.trouble⟩

/-- What is left of the tasks being done, and the tasks that wait. -/
def backlog (p : Pool σ) : List (Task σ) := p.workers.filterMap Worker.remainder ++ p.queue

/-- What the tasks of a pool come to, done one after the other. -/
def drained (p : Pool σ) : Option (σ × List String) := performAll p.backlog (p.shared, p.errors)

theorem drained_of_backlog (h : p.backlog = []) : p.drained = some (p.shared, p.errors) := by
  rw [drained, h, performAll]

theorem Sound.backlog_eq_nil_iff (hp : p.Sound) : p.backlog = [] ↔ p.isIdle = true := by
  rw [hp.isIdle_iff, backlog, List.append_eq_nil_iff, List.filterMap_eq_nil_iff, and_comm]
  refine and_congr_right fun _ => forall₂_congr fun worker _ => ?_
  cases worker <;> simp [Worker.remainder]

/-- The only worker is at the first place. -/
theorem workers_eq_singleton {w : Nat} {worker : Worker σ} (hone : p.workers.length = 1)
    (hw : p.workers[w]? = some worker) : w = 0 ∧ p.workers = [worker] := by
  obtain ⟨only, honly⟩ := List.length_eq_one_iff.1 hone
  obtain ⟨hlt, hworker⟩ := List.getElem?_eq_some_iff.1 hw
  obtain rfl : w = 0 := by omega
  simp only [honly, List.getElem_cons_zero] at hworker
  exact ⟨rfl, hworker ▸ honly⟩

/-- A single worker's moves do not change what its pool comes to. -/
theorem drained_of_step {event : Event σ} (hone : p.workers.length = 1)
    (hmove : event.isMove = true) (hstep : p.step event = some q) : q.drained = p.drained := by
  cases event with
  | take w =>
    obtain ⟨task, queue, hidle, hqueue, rfl⟩ := step_take.1 hstep
    obtain ⟨rfl, hworkers⟩ := workers_eq_singleton hone hidle
    simp only [drained, backlog, hworkers, hqueue]
    rfl
  | act w =>
    obtain ⟨task, action, rest, shared, hbusy, haction, rfl⟩ := step_act.1 hstep
    obtain ⟨rfl, hworkers⟩ := workers_eq_singleton hone hbusy
    have hperform : Task.perform ⟨action :: rest, task.trouble⟩ p.shared =
        Task.perform ⟨rest, task.trouble⟩ shared := by
      simp only [Task.perform, List.foldlM_cons, haction]
      rfl
    simp only [drained, backlog, hworkers]
    exact congrArg (Option.bind · _) hperform.symm
  | finish w =>
    obtain ⟨task, hbusy, rfl⟩ := step_finish.1 hstep
    obtain ⟨rfl, hworkers⟩ := workers_eq_singleton hone hbusy
    simp only [drained, backlog, conclude, hworkers]
    rfl
  | leave w =>
    obtain ⟨hidle, -, -, rfl⟩ := step_leave.1 hstep
    obtain ⟨rfl, hworkers⟩ := workers_eq_singleton hone hidle
    simp only [drained, backlog, hworkers]
    rfl
  | _ => cases hmove

theorem drained_submit {task : Task σ} (hstep : p.step (.submit task) = some q) :
    q.drained = p.drained.bind (performAll [task]) := by
  obtain ⟨-, rfl⟩ := step_submit.1 hstep
  rw [drained, drained, ← performAll_append, backlog, backlog, List.append_assoc]

/-- In a running pool without tasks no worker moves. -/
theorem backlog_ne_nil_of_step {event : Event σ} (hrunning : p.running = true)
    (hmove : event.isMove = true) (hstep : p.step event = some q) : p.backlog ≠ [] := by
  rw [backlog, Ne, List.append_eq_nil_iff, List.filterMap_eq_nil_iff]
  rintro ⟨hworkers, hqueue⟩
  cases event with
  | take w =>
    obtain ⟨task, queue, -, htask, -⟩ := step_take.1 hstep
    rw [hqueue] at htask
    cases htask
  | act w =>
    obtain ⟨task, action, rest, shared, hbusy, -, -⟩ := step_act.1 hstep
    cases hworkers _ (List.mem_of_getElem? hbusy)
  | finish w =>
    obtain ⟨task, hbusy, -⟩ := step_finish.1 hstep
    cases hworkers _ (List.mem_of_getElem? hbusy)
  | leave w =>
    obtain ⟨-, hstopped, -⟩ := step_leave.1 hstep
    rw [hrunning] at hstopped
    cases hstopped
  | _ => cases hmove

/-- As long as a pool runs, its workers stay. -/
theorem length_workers_of_step {event : Event σ} (hrunning : p.running = true)
    (hmove : event.isMove = true) (hstep : p.step event = some q) :
    q.workers.length = p.workers.length := by
  cases event with
  | take w =>
    obtain ⟨task, queue, -, -, rfl⟩ := step_take.1 hstep
    exact List.length_set
  | act w =>
    obtain ⟨task, action, rest, shared, -, -, rfl⟩ := step_act.1 hstep
    exact List.length_set
  | finish w =>
    obtain ⟨task, -, rfl⟩ := step_finish.1 hstep
    exact List.length_set
  | leave w =>
    obtain ⟨-, hstopped, -⟩ := step_leave.1 hstep
    rw [hrunning] at hstopped
    cases hstopped
  | _ => cases hmove

end PointTiles.Pool
