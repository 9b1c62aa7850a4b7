import PointTiles.Pool.History
import PointTiles.Proofs.Places

/-! # What an event does to a pool

One lemma for each event: when it can happen, and the pool after it. Nothing else unfolds
`Pool.step`.

* `step_submit`, `step_take`, `step_act`, `step_finish`, `step_leave`, `step_clearErrors`,
  `step_halt`, `step_start`, `step_resize`: the events.
* `run_induction`: what every step keeps holds after a run.
* `Sound`, `sound_of_run`: how the parts of a pool fit together after any events.
-/

namespace PointTiles.Pool
set_option autoImplicit false

variable {σ : Type} {p q : Pool σ} {w : Nat}

/-! ## Events -/

theorem step_submit {task : Task σ} :
    p.step (.submit task) = some q ↔ (p.running = true ∧ p.queue.length < p.capacity) ∧
      q = { p with queue := p.queue ++ [task] } := by
  simp only [step, enqueue, Option.ite_none_right_eq_some, Option.some.injEq, @eq_comm _ q]

theorem step_of_submit? {task : Task σ} (h : p.submit? task = .ok (some q)) :
    p.step (.submit task) = some q := by
  rw [submit?] at h
  split at h
  · exact Except.ok.inj h
  · cases h

theorem step_take :
    p.step (.take w) = some q ↔ ∃ task queue, p.workers[w]? = some .idle ∧ p.queue = task :: queue ∧
      q = { p with
        queue
        outstanding := p.outstanding + 1
        workers := p.workers.set w (.busy task task.actions) } := by
  constructor
  · intro hstep
    simp only [step] at hstep
    split at hstep
    · rename_i hidle
      simp only [dequeue] at hstep
      split at hstep
      · cases hstep
      · rename_i task queue hqueue
        exact ⟨task, queue, hidle, hqueue, (Option.some.inj hstep).symm⟩
    · cases hstep
  · rintro ⟨task, queue, hidle, hqueue, rfl⟩
    simp only [step, hidle, dequeue, hqueue]

theorem step_act :
    p.step (.act w) = some q ↔ ∃ task action rest shared,
      p.workers[w]? = some (.busy task (action :: rest)) ∧ action p.shared = some shared ∧
        q = { p with shared, workers := p.workers.set w (.busy task rest) } := by
  constructor
  · intro hstep
    simp only [step] at hstep
    split at hstep
    · rename_i task action rest hbusy
      obtain ⟨shared, haction, rfl⟩ := Option.map_eq_some_iff.1 hstep
      exact ⟨task, action, rest, shared, hbusy, haction, rfl⟩
    · cases hstep
  · rintro ⟨task, action, rest, shared, hbusy, haction, rfl⟩
    simp only [step, hbusy, perform, haction, Option.map_some]

theorem step_finish :
    p.step (.finish w) = some q ↔ ∃ task, p.workers[w]? = some (.busy task []) ∧
      q = p.conclude w task := by
  constructor
  · intro hstep
    simp only [step] at hstep
    split at hstep
    · rename_i task hbusy
      exact ⟨task, hbusy, (Option.some.inj hstep).symm⟩
    · cases hstep
  · rintro ⟨task, hbusy, rfl⟩
    simp only [step, hbusy]

theorem step_leave :
    p.step (.leave w) = some q ↔ p.workers[w]? = some .idle ∧ p.running = false ∧ p.queue = [] ∧
      q = { p with workers := p.workers.eraseIdx w } := by
  constructor
  · intro hstep
    simp only [step] at hstep
    split at hstep
    · rename_i hidle
      obtain ⟨hempty, hq⟩ := Option.ite_none_right_eq_some.1 hstep
      exact ⟨hidle, by simpa using hempty.1, by simpa using hempty.2, (Option.some.inj hq).symm⟩
    · cases hstep
  · rintro ⟨hidle, hrunning, hqueue, rfl⟩
    simp [step, hidle, hrunning, hqueue]

theorem step_clearErrors : p.step .clearErrors = some q ↔ q = { p with errors := [] } := by
  simp [step, @eq_comm _ q]

theorem step_halt :
    p.step .halt = some q ↔ p.running = true ∧ q = { p with running := false } := by
  simp [step, @eq_comm _ q]

theorem step_start :
    p.step .start = some q ↔ (p.running = false ∧ p.workers = []) ∧
      q = { p with running := true, workers := List.replicate p.size .idle } := by
  simp [step, @eq_comm _ q]

theorem step_resize {size : Nat} :
    p.step (.resize size) = some q ↔ (p.running = false ∧ p.workers = []) ∧
      q = { p with size := max size 1 } := by
  simp [step, @eq_comm _ q]

/-! ## Runs -/

theorem run_induction {motive : Pool σ → Prop} {events : List (Event σ)}
    (hstep : ∀ {event p q}, motive p → p.step event = some q → motive q)
    (hstart : motive p) (hrun : run events p = some q) : motive q := by
  induction events generalizing p with
  | nil =>
    simp only [run, Option.some.injEq] at hrun
    exact hrun ▸ hstart
  | cons event events ih =>
    obtain ⟨next, hnext, hrest⟩ := Option.bind_eq_some_iff.1 hrun
    exact ih (hstep hstart hnext) hrest

/-! ## Sound pools -/

/-- The counter counts the busy workers, the queue keeps to its limit, and a running pool has all
its workers. -/
structure Sound (p : Pool σ) : Prop where
  outstanding : p.outstanding = p.executing.length
  room : p.queue.length ≤ p.capacity
  capacity_pos : 0 < p.capacity
  size_pos : 0 < p.size
  staffed : p.running = true → p.workers.length = p.size

/-- Whether a worker has a task. -/
def Worker.isBusy : Worker σ → Bool
  | .busy _ _ => true
  | .idle => false

theorem length_executing (p : Pool σ) : p.executing.length = p.workers.countP Worker.isBusy := by
  rw [executing, List.length_filterMap_eq_countP]
  congr 1
  funext worker
  cases worker <;> rfl

theorem length_executing_le (p : Pool σ) : p.executing.length ≤ p.workers.length :=
  List.length_filterMap_le _ _

/-- Putting another worker in a place changes the count of busy ones by these two. -/
theorem countP_isBusy_split (before after : List (Worker σ)) (worker : Worker σ) :
    (before ++ worker :: after).countP Worker.isBusy =
      before.countP Worker.isBusy + after.countP Worker.isBusy + worker.isBusy.toNat := by
  rw [List.countP_append, List.countP_cons]
  cases worker <;> rfl

theorem sound_stopped (size capacity : Nat) (shared : σ) :
    (stopped size capacity shared).Sound where
  outstanding := rfl
  room := Nat.zero_le _
  capacity_pos := Nat.le_max_right _ _
  size_pos := Nat.le_max_right _ _
  staffed := by simp [stopped]

theorem Sound.step {event : Event σ} (hp : p.Sound) (hstep : p.step event = some q) : q.Sound := by
  obtain ⟨hcount, hroom, hcapacity, hsize, hstaffed⟩ := hp
  rw [length_executing] at hcount
  cases event with
  | submit task =>
    obtain ⟨⟨hrunning, hfree⟩, rfl⟩ := step_submit.1 hstep
    refine ⟨by rwa [length_executing], ?_, hcapacity, hsize, hstaffed⟩
    rw [List.length_append]
    exact hfree
  | take w =>
    obtain ⟨task, queue, hidle, hqueue, rfl⟩ := step_take.1 hstep
    obtain ⟨before, after, hworkers, rfl⟩ := Places.exists_split hidle
    rw [hworkers, countP_isBusy_split] at hcount
    rw [hqueue] at hroom
    refine ⟨?_, Nat.le_of_succ_le hroom, hcapacity, hsize, by simpa using hstaffed⟩
    simp only [length_executing, hworkers, Places.set_split, countP_isBusy_split, hcount]
    rfl
  | act w =>
    obtain ⟨task, action, rest, shared, hbusy, -, rfl⟩ := step_act.1 hstep
    obtain ⟨before, after, hworkers, rfl⟩ := Places.exists_split hbusy
    rw [hworkers, countP_isBusy_split] at hcount
    refine ⟨?_, hroom, hcapacity, hsize, by simpa using hstaffed⟩
    simp only [length_executing, hworkers, Places.set_split, countP_isBusy_split, hcount]
    rfl
  | finish w =>
    obtain ⟨task, hbusy, rfl⟩ := step_finish.1 hstep
    obtain ⟨before, after, hworkers, rfl⟩ := Places.exists_split hbusy
    rw [hworkers, countP_isBusy_split] at hcount
    refine ⟨?_, hroom, hcapacity, hsize, by simpa [conclude] using hstaffed⟩
    simp only [length_executing, conclude, hworkers, Places.set_split, countP_isBusy_split, hcount]
    rfl
  | leave w =>
    obtain ⟨hidle, hstopped, -, rfl⟩ := step_leave.1 hstep
    obtain ⟨before, after, hworkers, rfl⟩ := Places.exists_split hidle
    rw [hworkers, countP_isBusy_split] at hcount
    refine ⟨?_, hroom, hcapacity, hsize, fun hrunning => absurd hrunning (by simp [hstopped])⟩
    simp only [length_executing, hworkers, Places.eraseIdx_split, List.countP_append, hcount]
    rfl
  | clearErrors =>
    obtain rfl := step_clearErrors.1 hstep
    exact ⟨by rwa [length_executing], hroom, hcapacity, hsize, hstaffed⟩
  | halt =>
    obtain ⟨-, rfl⟩ := step_halt.1 hstep
    exact ⟨by rwa [length_executing], hroom, hcapacity, hsize, by simp⟩
  | start =>
    obtain ⟨⟨-, hworkers⟩, rfl⟩ := step_start.1 hstep
    rw [hworkers] at hcount
    refine ⟨?_, hroom, hcapacity, hsize, fun _ => List.length_replicate⟩
    rw [length_executing, hcount, List.countP_replicate]
    rfl
  | resize size =>
    obtain ⟨⟨hstopped, -⟩, rfl⟩ := step_resize.1 hstep
    exact ⟨by rwa [length_executing], hroom, hcapacity, Nat.le_max_right _ _,
      fun hrunning => absurd hrunning (by simp [hstopped])⟩

theorem sound_of_run {size capacity : Nat} {shared : σ} {events : List (Event σ)}
    (hrun : run events (stopped size capacity shared) = some p) : p.Sound :=
  run_induction Sound.step (sound_stopped size capacity shared) hrun

theorem Sound.modifyShared (hp : p.Sound) (f : σ → σ) : (p.modifyShared f).Sound :=
  ⟨hp.outstanding, hp.room, hp.capacity_pos, hp.size_pos, hp.staffed⟩

theorem Sound.outstanding_eq_zero_iff (hp : p.Sound) :
    p.outstanding = 0 ↔ ∀ worker ∈ p.workers, worker = .idle := by
  rw [hp.outstanding, length_executing, List.countP_eq_zero]
  refine forall₂_congr (fun worker _ => ?_)
  cases worker <;> simp [Worker.isBusy]

theorem Sound.isIdle_iff (hp : p.Sound) :
    p.isIdle = true ↔ p.queue = [] ∧ ∀ worker ∈ p.workers, worker = .idle := by
  rw [← hp.outstanding_eq_zero_iff]
  simp [isIdle]

theorem step_capacity {event : Event σ} (hstep : p.step event = some q) :
    q.capacity = p.capacity := by
  cases event with
  | submit task =>
    obtain ⟨-, rfl⟩ := step_submit.1 hstep
    rfl
  | take w =>
    obtain ⟨task, queue, -, -, rfl⟩ := step_take.1 hstep
    rfl
  | act w =>
    obtain ⟨task, action, rest, shared, -, -, rfl⟩ := step_act.1 hstep
    rfl
  | finish w =>
    obtain ⟨task, -, rfl⟩ := step_finish.1 hstep
    rfl
  | leave w =>
    obtain ⟨-, -, -, rfl⟩ := step_leave.1 hstep
    rfl
  | clearErrors => rw [step_clearErrors.1 hstep]
  | halt => rw [(step_halt.1 hstep).2]
  | start => rw [(step_start.1 hstep).2]
  | resize size => rw [(step_resize.1 hstep).2]

end PointTiles.Pool
