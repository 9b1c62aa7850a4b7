import PointTiles.Pool.Monitor
import PointTiles.Proofs.Pool.Step

/-! # What a move does to a monitor

* `Change`: one case for each outcome of a move, with the thread that moves cut out of its list.
  `change_of_step` says that there are no others.
* `wakeOne_cases`, `exists_wakeOne`: a signal wakes a thread that is asleep, or there is none.
* `Move.event`, `Change.pool`, `exists_pool_run`: a run of the monitor is a run of the pool.
* `Stands`, `Crewed.step`: where a worker stands and what the pool says of it.
-/

namespace PointTiles.Pool
set_option autoImplicit false

variable {σ : Type} {p : Pool σ}

theorem step_submit_eq_none_iff {task : Task σ} :
    p.step (.submit task) = none ↔ ¬ (p.running = true ∧ p.queue.length < p.capacity) := by
  rw [step, enqueue, ite_eq_right_iff]
  simp

theorem step_take_eq_none {w : Nat} (hqueue : p.queue = []) : p.step (.take w) = none := by
  refine Option.eq_none_iff_forall_ne_some.2 (fun q hstep => ?_)
  obtain ⟨task, queue, -, htask, -⟩ := step_take.1 hstep
  rw [hqueue] at htask
  cases htask

theorem queue_eq_nil_of_step_take {w : Nat} (hidle : p.workers[w]? = some .idle)
    (hnone : p.step (.take w) = none) : p.queue = [] := by
  cases hqueue : p.queue with
  | nil => rfl
  | cons task queue =>
    rw [step_take.2 ⟨task, queue, hidle, hqueue, rfl⟩] at hnone
    cases hnone

theorem sound_create (size capacity : Nat) (shared : σ) : (create size capacity shared).Sound :=
  (sound_stopped size capacity shared).step
    (show (stopped size capacity shared).step .start = some (create size capacity shared) from rfl)

end PointTiles.Pool

namespace PointTiles.Monitor

variable {σ : Type} {m n : Monitor σ} {move : Move σ}

/-! ## Signals -/

theorem wakeOne_cases {β : Type} {isAsleep : β → Bool} {wake : β → β} {woken : Option Nat}
    {threads threads' : List β} (h : wakeOne isAsleep wake woken threads = some threads') :
    (threads.any isAsleep = false ∧ threads' = threads) ∨
      ∃ before t after, threads = before ++ t :: after ∧ isAsleep t = true ∧
        threads' = before ++ wake t :: after := by
  cases woken with
  | none =>
    rw [wakeOne, Option.ite_none_left_eq_some] at h
    exact .inl ⟨by simpa using h.1, (Option.some.inj h.2).symm⟩
  | some i =>
    rw [wakeOne] at h
    split at h
    · rename_i t hplace
      obtain ⟨hasleep, hset⟩ := Option.ite_none_right_eq_some.1 h
      obtain ⟨before, after, rfl, rfl⟩ := Places.exists_split hplace
      rw [Places.set_split] at hset
      exact .inr ⟨before, t, after, rfl, hasleep, (Option.some.inj hset).symm⟩
    · cases h

theorem exists_wakeOne {β : Type} (isAsleep : β → Bool) (wake : β → β) (threads : List β) :
    ∃ woken threads', wakeOne isAsleep wake woken threads = some threads' := by
  cases hany : threads.any isAsleep with
  | false => exact ⟨none, threads, by simp [wakeOne, hany]⟩
  | true =>
    obtain ⟨t, ht, hasleep⟩ := List.any_eq_true.1 hany
    obtain ⟨i, hplace⟩ := List.mem_iff_getElem?.1 ht
    exact ⟨some i, threads.set i (wake t), by simp [wakeOne, hplace, hasleep]⟩

/-! ## Moves -/

/-- The outcomes of a move. -/
inductive Change (m : Monitor σ) : Move σ → Monitor σ → Prop where
  | called {task : Pool.Task σ} (habsent : m.closer = .absent) :
      Change m (.call task) { m with submitters := m.submitters ++ [.checking task] }
  | awaited (habsent : m.closer = .absent) :
      Change m .await { m with waiters := m.waiters ++ [.checking] }
  | cleared {pool : Pool σ} (habsent : m.closer = .absent)
      (hpool : m.pool.step .clearErrors = some pool) : Change m .clearErrors { m with pool }
  | halted {pool : Pool σ} (hquiet : m.quiet = true) (hpool : m.pool.step .halt = some pool) :
      Change m .halt { m with pool, closer := .wakingWorkers }
  | started {pool : Pool σ} (hquiet : m.quiet = true) (hpool : m.pool.step .start = some pool) :
      Change m .start
        { m with pool, hands := List.replicate pool.workers.length .checking }
  | resized {size : Nat} {pool : Pool σ} (hquiet : m.quiet = true)
      (hpool : m.pool.step (.resize size) = some pool) : Change m (.resize size) { m with pool }
  | refused {before after : List (Submitter σ)} {task : Pool.Task σ}
      (hsubmitters : m.submitters = before ++ .checking task :: after)
      (hstopped : m.pool.running = false) :
      Change m (.submitter before.length)
        { m with submitters := before ++ .returned false :: after }
  | queued {before after : List (Submitter σ)} {task : Pool.Task σ} {pool : Pool σ}
      (hsubmitters : m.submitters = before ++ .checking task :: after)
      (hpool : m.pool.step (.submit task) = some pool) :
      Change m (.submitter before.length)
        { m with pool, submitters := before ++ .signalling :: after }
  | lacksRoom {before after : List (Submitter σ)} {task : Pool.Task σ}
      (hsubmitters : m.submitters = before ++ .checking task :: after)
      (hrunning : m.pool.running = true) (hfull : m.pool.capacity ≤ m.pool.queue.length) :
      Change m (.submitter before.length)
        { m with submitters := before ++ .asleep task :: after }
  | signalledWork {before after : List (Submitter σ)} {woken : Option Nat} {hands : List Hand}
      (hsubmitters : m.submitters = before ++ .signalling :: after)
      (hwake : wakeOne (· = .asleep) Hand.wake woken m.hands = some hands) :
      Change m (.signalWork before.length woken)
        { m with hands, submitters := before ++ .returned true :: after }
  | took {before after : List Hand} {pool : Pool σ} (hhands : m.hands = before ++ .checking :: after)
      (hpool : m.pool.step (.take before.length) = some pool) :
      Change m (.worker before.length) { m with pool, hands := before ++ .signalling :: after }
  | lacksWork {before after : List Hand} (hhands : m.hands = before ++ .checking :: after)
      (hpool : m.pool.step (.take before.length) = none) (hrunning : m.pool.running = true) :
      Change m (.worker before.length) { m with hands := before ++ .asleep :: after }
  | left {before after : List Hand} {pool : Pool σ} (hhands : m.hands = before ++ .checking :: after)
      (hpool : m.pool.step (.leave before.length) = some pool) :
      Change m (.worker before.length) { m with pool, hands := before ++ after }
  | signalledRoom {before after : List Hand} {woken : Option Nat} {submitters : List (Submitter σ)}
      (hhands : m.hands = before ++ .signalling :: after)
      (hwake : wakeOne Submitter.isAsleep Submitter.wake woken m.submitters = some submitters) :
      Change m (.signalRoom before.length woken)
        { m with submitters, hands := before ++ .working :: after }
  | acted {before after : List Hand} {pool : Pool σ} (hhands : m.hands = before ++ .working :: after)
      (hpool : m.pool.step (.act before.length) = some pool) :
      Change m (.act before.length) { m with pool }
  | finished {before after : List Hand} {pool : Pool σ}
      (hhands : m.hands = before ++ .working :: after)
      (hpool : m.pool.step (.finish before.length) = some pool) :
      Change m (.finish before.length)
        { m with pool,
                 hands := before ++ (if pool.isIdle then .announcing else .checking) :: after }
  | announced {before after : List Hand} (hhands : m.hands = before ++ .announcing :: after) :
      Change m (.announce before.length)
        { m with waiters := m.waiters.map Waiter.wake, hands := before ++ .checking :: after }
  | looked {before after : List Waiter} (hwaiters : m.waiters = before ++ .checking :: after) :
      Change m (.waiter before.length)
        { m with waiters := before ++ (if m.pool.isIdle then .returned else .asleep) :: after }
  | wokeWorkers (hcloser : m.closer = .wakingWorkers) :
      Change m .closer { m with hands := m.hands.map Hand.wake, closer := .wakingSubmitters }
  | wokeSubmitters (hcloser : m.closer = .wakingSubmitters) :
      Change m .closer { m with submitters := m.submitters.map Submitter.wake, closer := .joining }
  | joined (hcloser : m.closer = .joining) (hworkers : m.pool.workers = []) :
      Change m .closer { m with closer := .absent }
  | submitterStrays {before after : List (Submitter σ)} {task : Pool.Task σ}
      (hsubmitters : m.submitters = before ++ .asleep task :: after) :
      Change m (.strayWakeSubmitter before.length)
        { m with submitters := before ++ .checking task :: after }
  | workerStrays {before after : List Hand} (hhands : m.hands = before ++ .asleep :: after) :
      Change m (.strayWakeWorker before.length) { m with hands := before ++ .checking :: after }
  | waiterStrays {before after : List Waiter} (hwaiters : m.waiters = before ++ .asleep :: after) :
      Change m (.strayWakeWaiter before.length) { m with waiters := before ++ .checking :: after }

theorem change_of_checkSubmitter {before after : List (Submitter σ)} {task : Pool.Task σ}
    (hsubmitters : m.submitters = before ++ .checking task :: after) :
    Change m (.submitter before.length) (m.checkSubmitter before.length task) := by
  rw [checkSubmitter, hsubmitters]
  simp only [Places.set_split]
  split
  · rename_i hstopped
    exact .refused hsubmitters (by simpa using hstopped)
  · rename_i hrunning
    split
    · rename_i pool hpool
      exact .queued hsubmitters hpool
    · rename_i hpool
      have hrunning' : m.pool.running = true := by simpa using hrunning
      have hfull := Pool.step_submit_eq_none_iff.1 hpool
      exact .lacksRoom hsubmitters hrunning' (Nat.le_of_not_lt (fun hroom => hfull ⟨hrunning', hroom⟩))

theorem change_of_checkWorker {before after : List Hand}
    (hhands : m.hands = before ++ .checking :: after) (h : m.checkWorker before.length = some n) :
    Change m (.worker before.length) n := by
  rw [checkWorker, hhands] at h
  simp only [Places.set_split, Places.eraseIdx_split] at h
  split at h
  · rename_i pool hpool
    cases h
    exact .took hhands hpool
  · rename_i hpool
    split at h
    · rename_i hrunning
      cases h
      exact .lacksWork hhands hpool hrunning
    · obtain ⟨pool, hleave, rfl⟩ := Option.map_eq_some_iff.1 h
      exact .left hhands hleave

theorem change_of_step (h : m.step move = some n) : Change m move n := by
  cases move with
  | call task =>
    obtain ⟨habsent, hn⟩ := Option.ite_none_right_eq_some.1 h
    cases hn
    exact .called habsent
  | await =>
    obtain ⟨habsent, hn⟩ := Option.ite_none_right_eq_some.1 h
    cases hn
    exact .awaited habsent
  | clearErrors =>
    obtain ⟨habsent, hn⟩ := Option.ite_none_right_eq_some.1 h
    obtain ⟨pool, hpool, rfl⟩ := Option.map_eq_some_iff.1 hn
    exact .cleared habsent hpool
  | halt =>
    obtain ⟨hquiet, hn⟩ := Option.ite_none_right_eq_some.1 h
    obtain ⟨pool, hpool, rfl⟩ := Option.map_eq_some_iff.1 hn
    exact .halted hquiet hpool
  | start =>
    obtain ⟨hquiet, hn⟩ := Option.ite_none_right_eq_some.1 h
    obtain ⟨pool, hpool, rfl⟩ := Option.map_eq_some_iff.1 hn
    exact .started hquiet hpool
  | resize size =>
    obtain ⟨hquiet, hn⟩ := Option.ite_none_right_eq_some.1 h
    obtain ⟨pool, hpool, rfl⟩ := Option.map_eq_some_iff.1 hn
    exact .resized hquiet hpool
  | submitter i =>
    rw [step] at h
    split at h
    · rename_i task hplace
      obtain ⟨before, after, hsubmitters, rfl⟩ := Places.exists_split hplace
      cases h
      exact change_of_checkSubmitter hsubmitters
    · cases h
  | signalWork i woken =>
    rw [step] at h
    split at h
    · rename_i hplace
      obtain ⟨before, after, hsubmitters, rfl⟩ := Places.exists_split hplace
      obtain ⟨hands, hwake, rfl⟩ := Option.map_eq_some_iff.1 h
      rw [hsubmitters, Places.set_split]
      exact .signalledWork hsubmitters hwake
    · cases h
  | worker w =>
    rw [step] at h
    split at h
    · rename_i hplace
      obtain ⟨before, after, hhands, rfl⟩ := Places.exists_split hplace
      exact change_of_checkWorker hhands h
    · cases h
  | signalRoom w woken =>
    rw [step] at h
    split at h
    · rename_i hplace
      obtain ⟨before, after, hhands, rfl⟩ := Places.exists_split hplace
      obtain ⟨submitters, hwake, rfl⟩ := Option.map_eq_some_iff.1 h
      rw [hhands, Places.set_split]
      exact .signalledRoom hhands hwake
    · cases h
  | act w =>
    rw [step] at h
    split at h
    · rename_i hplace
      obtain ⟨before, after, hhands, rfl⟩ := Places.exists_split hplace
      obtain ⟨pool, hpool, rfl⟩ := Option.map_eq_some_iff.1 h
      exact .acted hhands hpool
    · cases h
  | finish w =>
    rw [step] at h
    split at h
    · rename_i hplace
      obtain ⟨before, after, hhands, rfl⟩ := Places.exists_split hplace
      obtain ⟨pool, hpool, rfl⟩ := Option.map_eq_some_iff.1 h
      rw [hhands, Places.set_split]
      exact .finished hhands hpool
    · cases h
  | announce w =>
    rw [step] at h
    split at h
    · rename_i hplace
      obtain ⟨before, after, hhands, rfl⟩ := Places.exists_split hplace
      cases h
      rw [hhands, Places.set_split]
      exact .announced hhands
    · cases h
  | waiter i =>
    rw [step] at h
    split at h
    · rename_i hplace
      obtain ⟨before, after, hwaiters, rfl⟩ := Places.exists_split hplace
      cases h
      rw [hwaiters, Places.set_split]
      exact .looked hwaiters
    · cases h
  | closer =>
    rw [step] at h
    split at h
    · cases h
    · rename_i hcloser
      cases h
      exact .wokeWorkers hcloser
    · rename_i hcloser
      cases h
      exact .wokeSubmitters hcloser
    · rename_i hcloser
      obtain ⟨hworkers, hn⟩ := Option.ite_none_right_eq_some.1 h
      cases hn
      exact .joined hcloser (List.isEmpty_iff.1 hworkers)
  | strayWakeSubmitter i =>
    rw [step] at h
    split at h
    · rename_i task hplace
      obtain ⟨before, after, hsubmitters, rfl⟩ := Places.exists_split hplace
      cases h
      rw [hsubmitters, Places.set_split]
      exact .submitterStrays hsubmitters
    · cases h
  | strayWakeWorker w =>
    rw [step] at h
    split at h
    · rename_i hplace
      obtain ⟨before, after, hhands, rfl⟩ := Places.exists_split hplace
      cases h
      rw [hhands, Places.set_split]
      exact .workerStrays hhands
    · cases h
  | strayWakeWaiter i =>
    rw [step] at h
    split at h
    · rename_i hplace
      obtain ⟨before, after, hwaiters, rfl⟩ := Places.exists_split hplace
      cases h
      rw [hwaiters, Places.set_split]
      exact .waiterStrays hwaiters
    · cases h

theorem run_induction {motive : Monitor σ → Prop} {moves : List (Move σ)}
    (hstep : ∀ {move m n}, motive m → m.step move = some n → motive n)
    (hstart : motive m) (hrun : run moves m = some n) : motive n := by
  induction moves generalizing m with
  | nil =>
    simp only [run, Option.some.injEq] at hrun
    exact hrun ▸ hstart
  | cons move moves ih =>
    obtain ⟨next, hnext, hrest⟩ := Option.bind_eq_some_iff.1 hrun
    exact ih (hstep hstart hnext) hrest

/-! ## Events of the pool -/

/-- The event of the pool that a move is, if it is one. -/
def Move.event (m : Monitor σ) : Move σ → Option (Pool.Event σ)
  | .clearErrors => some .clearErrors
  | .halt => some .halt
  | .start => some .start
  | .resize size => some (.resize size)
  | .submitter i =>
    match m.submitters[i]? with
    | some (.checking task) =>
      if (m.pool.step (.submit task)).isSome then some (.submit task) else none
    | _ => none
  | .worker w =>
    if (m.pool.step (.take w)).isSome then some (.take w)
    else if m.pool.running then none
    else some (.leave w)
  | .act w => some (.act w)
  | .finish w => some (.finish w)
  | _ => none

theorem event_submitter_of_some {before after : List (Submitter σ)} {task : Pool.Task σ}
    {pool : Pool σ} (hsubmitters : m.submitters = before ++ .checking task :: after)
    (hpool : m.pool.step (.submit task) = some pool) :
    Move.event m (.submitter before.length) = some (.submit task) := by
  simp only [Move.event, hsubmitters, Places.getElem?_split, hpool, Option.isSome_some, if_true]

theorem event_submitter_of_none {before after : List (Submitter σ)} {task : Pool.Task σ}
    (hsubmitters : m.submitters = before ++ .checking task :: after)
    (hnone : ¬ (m.pool.running = true ∧ m.pool.queue.length < m.pool.capacity)) :
    Move.event m (.submitter before.length) = none := by
  simp only [Move.event, hsubmitters, Places.getElem?_split,
    Pool.step_submit_eq_none_iff.2 hnone, Option.isSome_none]
  rfl

/-- A move is an event of the pool, or leaves the pool as it is. -/
theorem Change.pool (h : Change m move n) :
    (∃ event, move.event m = some event ∧ m.pool.step event = some n.pool) ∨
      (move.event m = none ∧ n.pool = m.pool) := by
  cases h with
  | cleared _ hpool => exact .inl ⟨_, rfl, hpool⟩
  | halted _ hpool => exact .inl ⟨_, rfl, hpool⟩
  | started _ hpool => exact .inl ⟨_, rfl, hpool⟩
  | resized _ hpool => exact .inl ⟨_, rfl, hpool⟩
  | acted _ hpool => exact .inl ⟨_, rfl, hpool⟩
  | finished _ hpool => exact .inl ⟨_, rfl, hpool⟩
  | queued hsubmitters hpool => exact .inl ⟨_, event_submitter_of_some hsubmitters hpool, hpool⟩
  | @took before after pool hhands hpool =>
    refine .inl ⟨.take before.length, ?_, hpool⟩
    simp only [Move.event, hpool, Option.isSome_some, if_true]
  | @left before after pool hhands hpool =>
    obtain ⟨-, hstopped, hqueue, -⟩ := Pool.step_leave.1 hpool
    refine .inl ⟨.leave before.length, ?_, hpool⟩
    simp [Move.event, Pool.step_take_eq_none hqueue, hstopped]
  | refused hsubmitters hstopped =>
    exact .inr ⟨event_submitter_of_none hsubmitters (fun hroom => by simp [hstopped] at hroom), rfl⟩
  | lacksRoom hsubmitters hrunning hfull =>
    exact .inr ⟨event_submitter_of_none hsubmitters (fun hroom => Nat.not_lt.2 hfull hroom.2), rfl⟩
  | lacksWork hhands hpool hrunning => exact .inr ⟨by simp [Move.event, hpool, hrunning], rfl⟩
  | _ => exact .inr ⟨rfl, rfl⟩

theorem exists_pool_run {moves : List (Move σ)} (hrun : run moves m = some n) :
    ∃ events, Pool.run events m.pool = some n.pool := by
  induction moves generalizing m with
  | nil =>
    simp only [run, Option.some.injEq] at hrun
    exact ⟨[], by rw [hrun, Pool.run]⟩
  | cons move moves ih =>
    obtain ⟨next, hnext, hrest⟩ := Option.bind_eq_some_iff.1 hrun
    obtain ⟨events, hevents⟩ := ih hrest
    rcases (change_of_step hnext).pool with ⟨event, -, hpool⟩ | ⟨-, hpool⟩
    · exact ⟨event :: events, by rw [Pool.run, hpool, Option.bind_some, hevents]⟩
    · exact ⟨events, by rw [← hpool, hevents]⟩

theorem sound_of_run {moves : List (Move σ)} (hm : m.pool.Sound) (hrun : run moves m = some n) :
    n.pool.Sound := by
  obtain ⟨events, hevents⟩ := exists_pool_run hrun
  exact Pool.run_induction Pool.Sound.step hm hevents

/-! ## Workers and their hands -/

/-- A worker that stands here is idle or busy. -/
inductive Stands : Hand → Pool.Worker σ → Prop where
  | checking : Stands .checking .idle
  | asleep : Stands .asleep .idle
  | signalling {task : Pool.Task σ} {rest : List (σ → Option σ)} :
      Stands .signalling (.busy task rest)
  | working {task : Pool.Task σ} {rest : List (σ → Option σ)} : Stands .working (.busy task rest)
  | announcing : Stands .announcing .idle

theorem Stands.wake {hand : Hand} {worker : Pool.Worker σ} (h : Stands hand worker) :
    Stands hand.wake worker := by
  cases h <;> constructor

def Crewed (m : Monitor σ) : Prop := List.Forall₂ Stands m.hands m.pool.workers

theorem Crewed.hands_eq_nil_iff (h : Crewed m) : m.hands = [] ↔ m.pool.workers = [] := by
  rw [← List.length_eq_zero_iff, h.length_eq, List.length_eq_zero_iff]

theorem Crewed.split {before after : List Hand} {hand : Hand} (h : Crewed m)
    (hhands : m.hands = before ++ hand :: after) :
    ∃ before' worker after', m.pool.workers = before' ++ worker :: after' ∧
      before'.length = before.length ∧ List.Forall₂ Stands before before' ∧ Stands hand worker ∧
      List.Forall₂ Stands after after' := by
  rw [Crewed, hhands] at h
  exact Places.forall₂_cut h

theorem Crewed.idle_of_checking {before after : List Hand} (h : Crewed m)
    (hhands : m.hands = before ++ .checking :: after) :
    m.pool.workers[before.length]? = some .idle := by
  obtain ⟨before', worker, after', hworkers, hlen, -, hworker, -⟩ := h.split hhands
  cases hworker
  rw [hworkers, ← hlen, Places.getElem?_split]

/-- A hand goes on to where its worker stands as well. -/
theorem Crewed.keep {before after : List Hand} {hand next : Hand} (h : Crewed m)
    (hhands : m.hands = before ++ hand :: after)
    (hnext : ∀ worker : Pool.Worker σ, Stands hand worker → Stands next worker) :
    List.Forall₂ Stands (before ++ next :: after) m.pool.workers := by
  rw [Crewed, hhands] at h
  exact Places.forall₂_keep h hnext

theorem Crewed.set {before after : List Hand} {hand next : Hand} {worker : Pool.Worker σ}
    (h : Crewed m) (hhands : m.hands = before ++ hand :: after) (hnext : Stands next worker) :
    List.Forall₂ Stands (before ++ next :: after) (m.pool.workers.set before.length worker) := by
  obtain ⟨before', worker', after', hworkers, hlen, hbefore, -, hafter⟩ := h.split hhands
  rw [hworkers, ← hlen, Places.set_split]
  exact List.rel_append hbefore (.cons hnext hafter)

theorem Crewed.step (hm : Crewed m) (h : Change m move n) : Crewed n := by
  cases h with
  | cleared _ hpool =>
    obtain rfl := Pool.step_clearErrors.1 hpool
    exact hm
  | halted _ hpool =>
    obtain ⟨-, rfl⟩ := Pool.step_halt.1 hpool
    exact hm
  | started _ hpool =>
    obtain ⟨-, rfl⟩ := Pool.step_start.1 hpool
    rw [Crewed, List.length_replicate]
    exact Places.forall₂_replicate .checking _
  | resized _ hpool =>
    obtain ⟨-, rfl⟩ := Pool.step_resize.1 hpool
    exact hm
  | queued _ hpool =>
    obtain ⟨-, rfl⟩ := Pool.step_submit.1 hpool
    exact hm
  | signalledWork _ hwake =>
    rcases wakeOne_cases hwake with ⟨-, rfl⟩ | ⟨before, hand, after, hhands, -, rfl⟩
    · exact hm
    · exact hm.keep hhands (fun worker hworker => hworker.wake)
  | took hhands hpool =>
    obtain ⟨task, queue, -, -, rfl⟩ := Pool.step_take.1 hpool
    exact hm.set hhands .signalling
  | lacksWork hhands _ _ => exact hm.keep hhands (fun worker hworker => by cases hworker; constructor)
  | @left before after pool hhands hpool =>
    obtain ⟨before', worker, after', hworkers, hlen, hbefore, -, hafter⟩ := hm.split hhands
    obtain ⟨-, -, -, rfl⟩ := Pool.step_leave.1 hpool
    simp only [Crewed, hworkers, ← hlen, Places.eraseIdx_split]
    exact List.rel_append hbefore hafter
  | signalledRoom hhands _ =>
    exact hm.keep hhands (fun worker hworker => by cases hworker; constructor)
  | acted hhands hpool =>
    obtain ⟨task, action, rest, shared, -, -, rfl⟩ := Pool.step_act.1 hpool
    rw [Crewed, hhands]
    exact hm.set hhands .working
  | @finished before after pool hhands hpool =>
    obtain ⟨task, -, rfl⟩ := Pool.step_finish.1 hpool
    refine hm.set hhands ?_
    split <;> constructor
  | announced hhands => exact hm.keep hhands (fun worker hworker => by cases hworker; constructor)
  | wokeWorkers _ =>
    rw [Crewed, List.forall₂_map_left_iff]
    exact List.Forall₂.imp (fun _ _ h => h.wake) hm
  | workerStrays hhands => exact hm.keep hhands (fun worker hworker => by cases hworker; constructor)
  | _ => exact hm

theorem crewed_ofPool {pool : Pool σ} (hidle : ∀ worker ∈ pool.workers, worker = .idle) :
    Crewed (ofPool pool) := by
  have hworkers : pool.workers = List.replicate pool.workers.length .idle :=
    List.eq_replicate_iff.2 ⟨rfl, hidle⟩
  rw [Crewed, ofPool, hworkers, List.length_replicate]
  exact Places.forall₂_replicate .checking _

end PointTiles.Monitor
