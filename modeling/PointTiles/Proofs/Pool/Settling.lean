import PointTiles.Proofs.Pool.Moves
import PointTiles.Proofs.Pool.Wakeups

/-! # Letting the workers go on

* `Up`, `Down`: a pool that runs with all its workers, and one that is stopped and empty.
* `step_kept`: only the owner starts, stops or resizes the pool.
* `Able`: every action that is left to the workers can be done.
* `advance_induction`: what every move keeps holds where no worker can move any more.
* `down_settle`: a stopped pool whose tasks can all be done comes to be empty.
-/

namespace PointTiles.Pool
set_option autoImplicit false

-- Sums of numbers begin at the zero of the core library, whatever else is imported.
attribute [local instance (high)] Zero.ofOfNat0

variable {σ : Type} {p q : Pool σ}

/-- The pool runs with all its workers, at least one. -/
structure Up (p : Pool σ) : Prop where
  running : p.running = true
  staffed : p.workers.length = p.size
  size_pos : 1 ≤ p.size

/-- The pool is stopped and has neither workers nor tasks. -/
structure Down (p : Pool σ) : Prop where
  stopped : p.running = false
  workers : p.workers = []
  queue : p.queue = []
  outstanding : p.outstanding = 0

theorem Sound.up (hp : p.Sound) (hrunning : p.running = true) : p.Up :=
  ⟨hrunning, hp.staffed hrunning, hp.size_pos⟩

theorem Sound.down (hp : p.Sound) (ht : p.Tended) (hstopped : p.running = false)
    (hworkers : p.workers = []) : p.Down := by
  refine ⟨hstopped, hworkers, ?_, hp.outstanding_eq_zero_iff.2 ?_⟩
  · by_contra hqueue
    exact ht hqueue hworkers
  · rw [hworkers]
    exact List.forall_mem_nil _

/-! ## Moves of the others -/

def Event.isOwners : Event σ → Bool
  | .halt | .start | .resize _ => true
  | _ => false

theorem isOwners_of_isMove {event : Event σ} (hmove : event.isMove = true) :
    event.isOwners = false := by
  cases event with
  | take | act | finish | leave => rfl
  | _ => cases hmove

theorem step_kept {event : Event σ} (hothers : event.isOwners = false)
    (hstep : p.step event = some q) : q.running = p.running ∧ q.size = p.size := by
  cases event with
  | submit task =>
    obtain ⟨-, rfl⟩ := step_submit.1 hstep
    exact ⟨rfl, rfl⟩
  | take w =>
    obtain ⟨task, queue, -, -, rfl⟩ := step_take.1 hstep
    exact ⟨rfl, rfl⟩
  | act w =>
    obtain ⟨task, action, rest, shared, -, -, rfl⟩ := step_act.1 hstep
    exact ⟨rfl, rfl⟩
  | finish w =>
    obtain ⟨task, -, rfl⟩ := step_finish.1 hstep
    exact ⟨rfl, rfl⟩
  | leave w =>
    obtain ⟨-, -, -, rfl⟩ := step_leave.1 hstep
    exact ⟨rfl, rfl⟩
  | clearErrors =>
    obtain rfl := step_clearErrors.1 hstep
    exact ⟨rfl, rfl⟩
  | halt | start | resize => cases hothers

/-! ## Letting the workers go on -/

/-- Every action that is left can be done. -/
structure Able (p : Pool σ) : Prop where
  queue : ∀ task ∈ p.queue, ∀ action ∈ task.actions, ∀ s, ∃ s', action s = some s'
  workers : ∀ task rest, .busy task rest ∈ p.workers → ∀ action ∈ rest, ∀ s, ∃ s', action s = some s'

theorem Able.set {w : Nat} {worker : Worker σ} {queue : List (Task σ)} (h : p.Able)
    (hqueue : ∀ task ∈ queue, task ∈ p.queue)
    (hworker : ∀ task rest, worker = .busy task rest →
      ∀ action ∈ rest, ∀ s, ∃ s', action s = some s')
    (hq : q.queue = queue) (hworkers : q.workers = p.workers.set w worker) : q.Able := by
  constructor
  · intro task htask
    exact h.queue task (hqueue task (hq ▸ htask))
  · intro task rest hmem
    rw [hworkers] at hmem
    rcases List.mem_or_eq_of_mem_set hmem with hold | hnew
    · exact h.workers task rest hold
    · exact hworker task rest hnew.symm

theorem Able.step {event : Event σ} (h : p.Able) (hmove : event.isMove = true)
    (hstep : p.step event = some q) : q.Able := by
  cases event with
  | take w =>
    obtain ⟨task, queue, -, hqueue, rfl⟩ := step_take.1 hstep
    refine h.set (fun other hother => ?_) (fun _ _ hbusy => ?_) rfl rfl
    · rw [hqueue]
      exact List.mem_cons_of_mem _ hother
    · cases hbusy
      exact h.queue task (by rw [hqueue]; exact List.mem_cons_self)
  | act w =>
    obtain ⟨task, action, rest, shared, hbusy, -, rfl⟩ := step_act.1 hstep
    refine h.set (fun _ hother => hother) (fun _ _ hnext => ?_) rfl rfl
    cases hnext
    exact fun next hmem => h.workers _ _ (List.mem_of_getElem? hbusy) next
      (List.mem_cons_of_mem _ hmem)
  | finish w =>
    obtain ⟨task, -, rfl⟩ := step_finish.1 hstep
    exact h.set (fun _ hother => hother) (fun _ _ hnext => by cases hnext) rfl rfl
  | leave w =>
    obtain ⟨-, -, -, rfl⟩ := step_leave.1 hstep
    exact ⟨h.queue, fun task rest hmem => h.workers task rest (List.mem_of_mem_eraseIdx hmem)⟩
  | _ => cases hmove

/-- As long as a stopped pool has workers, one of them can move. -/
theorem Able.exists_move (h : p.Able) (hstopped : p.running = false) (hworkers : p.workers ≠ []) :
    ∃ event : Event σ, event.isMove = true ∧ ∃ q, p.step event = some q := by
  obtain ⟨worker, workers, hcons⟩ := List.exists_cons_of_ne_nil hworkers
  have hfirst : p.workers[0]? = some worker := by rw [hcons]; rfl
  cases worker with
  | busy task rest =>
    refine exists_move_of_busy hfirst fun action haction => ?_
    exact h.workers task rest (List.mem_of_getElem? hfirst) action (List.mem_of_mem_head? haction) _
  | idle =>
    by_cases hqueue : p.queue = []
    · exact ⟨.leave 0, rfl, _, step_leave.2 ⟨hfirst, hstopped, hqueue, rfl⟩⟩
    · exact exists_move_of_waiting hfirst hqueue

/-- What every move of the workers keeps holds when no worker can move any more. -/
theorem advance_induction {motive : Pool σ → Prop}
    (hmotive : ∀ {event : Event σ} {p q}, event.isMove = true → motive p → p.step event = some q →
      motive q)
    {moves : Nat} (hstart : motive p) (hmoves : p.weight ≤ moves) :
    motive (p.advance moves) ∧ (p.advance moves).advance? = none := by
  induction moves generalizing p with
  | zero =>
    refine ⟨hstart, ?_⟩
    cases hnext : p.advance? with
    | none => exact hnext
    | some q =>
      obtain ⟨event, hmove, hstep⟩ := exists_step_of_advance? hnext
      have hweight := weight_of_step hmove hstep
      omega
  | succ moves ih =>
    rw [advance]
    cases hnext : p.advance? with
    | none => exact ⟨hstart, hnext⟩
    | some q =>
      obtain ⟨event, hmove, hstep⟩ := exists_step_of_advance? hnext
      have hweight := weight_of_step hmove hstep
      exact ih (hmotive hmove hstart hstep) (by omega)

/-- A stopped pool whose tasks can all be done is empty when its workers have gone on. -/
theorem down_settle (hp : p.Sound) (ht : p.Tended) (hable : p.Able) (hstopped : p.running = false) :
    p.settle.Down := by
  obtain ⟨⟨hsound, htended, hable', hstopped'⟩, hend⟩ := advance_induction
    (motive := fun q => q.Sound ∧ q.Tended ∧ q.Able ∧ q.running = false)
    (fun hmove hq hstep => by
      obtain ⟨hsound, htended, hable, hstopped⟩ := hq
      obtain ⟨hrunning, -⟩ := step_kept (isOwners_of_isMove hmove) hstep
      exact ⟨hsound.step hstep, htended.step hsound hstep, hable.step hmove hstep,
        hrunning.trans hstopped⟩)
    ⟨hp, ht, hable, hstopped⟩ (Nat.le_refl p.weight)
  have hworkers : p.settle.workers = [] := by
    by_contra hworkers
    obtain ⟨event, hmove, q, hstep⟩ := hable'.exists_move hstopped' hworkers
    obtain ⟨next, hnext⟩ := exists_advance?_of_step hmove hstep
    cases hend.symm.trans hnext
  exact hsound.down htended hstopped' hworkers

/-! ## Calls -/

theorem start_of_running (hrunning : p.running = true) : p.start = p := by
  have hnone : p.step .start = none := by
    refine Option.eq_none_iff_forall_ne_some.2 fun q hstep => ?_
    obtain ⟨⟨hstopped, -⟩, -⟩ := step_start.1 hstep
    exact absurd (hrunning.symm.trans hstopped) (by decide)
  rw [start, hnone, Option.getD_none]

theorem stop_of_stopped (hstopped : p.running = false) : p.stop = p := by
  have hnone : p.step .halt = none := by
    refine Option.eq_none_iff_forall_ne_some.2 fun q hstep => ?_
    exact absurd ((step_halt.1 hstep).1.symm.trans hstopped) (by decide)
  rw [stop, hnone]

end PointTiles.Pool
