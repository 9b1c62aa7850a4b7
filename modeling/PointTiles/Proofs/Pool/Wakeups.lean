import PointTiles.Proofs.Pool.Threads

/-! # No wakeup is lost

* `Pool.Tended`: tasks that wait have workers to do them.
* `Stage`: a monitor is open to callers, closing, or closed, and who may be asleep in each.
* `WorkSignalled`, `RoomSignalled`, `IdleSignalled`: one for each wait set. While a thread is asleep
  there, what it waits for has others that are about to see to it.
* `Stage.step`, `WorkSignalled.step`, `RoomSignalled.step`, `IdleSignalled.step`: every move keeps
  these.
* `Sane`, `sane_of_run`: all of them, after any moves.

A signal wakes one thread, which may find that another was faster. So the invariants do not follow
single threads: they count the signals still to be given and the threads about to look, and compare
them with the tasks that wait and the places that are free.
-/

namespace PointTiles
set_option autoImplicit false

variable {σ : Type}

/-! ## Pools -/

namespace Pool

variable {p q : Pool σ}

/-- Tasks that wait have workers to do them. -/
def Tended (p : Pool σ) : Prop := p.queue ≠ [] → p.workers ≠ []

theorem Sound.workers_ne_nil (hp : p.Sound) (hrunning : p.running = true) : p.workers ≠ [] := by
  have hsize := hp.size_pos
  have hstaffed := hp.staffed hrunning
  intro hnil
  rw [hnil, List.length_nil] at hstaffed
  omega

theorem Tended.step {event : Event σ} (hp : p.Sound) (ht : p.Tended)
    (hstep : p.step event = some q) : q.Tended := by
  cases event with
  | submit task =>
    obtain ⟨⟨hrunning, -⟩, rfl⟩ := step_submit.1 hstep
    exact fun _ => hp.workers_ne_nil hrunning
  | take w =>
    obtain ⟨task, queue, -, hqueue, rfl⟩ := step_take.1 hstep
    intro _
    simpa using ht (by simp [hqueue])
  | act w =>
    obtain ⟨task, action, rest, shared, -, -, rfl⟩ := step_act.1 hstep
    intro hqueue
    simpa using ht hqueue
  | finish w =>
    obtain ⟨task, -, rfl⟩ := step_finish.1 hstep
    intro hqueue
    simpa [conclude] using ht hqueue
  | leave w =>
    obtain ⟨-, -, hqueue, rfl⟩ := step_leave.1 hstep
    exact fun hne => absurd hqueue hne
  | clearErrors =>
    obtain rfl := step_clearErrors.1 hstep
    exact ht
  | halt =>
    obtain ⟨-, rfl⟩ := step_halt.1 hstep
    exact ht
  | start =>
    obtain ⟨⟨-, hworkers⟩, rfl⟩ := step_start.1 hstep
    exact fun hqueue => absurd hworkers (ht hqueue)
  | resize size =>
    obtain ⟨-, rfl⟩ := step_resize.1 hstep
    exact ht

end Pool

namespace Submitter

def isChecking : Submitter σ → Bool
  | checking _ => true
  | _ => false

def isSignalling : Submitter σ → Bool
  | signalling => true
  | _ => false

theorem isAsleep_of_hasReturned {s : Submitter σ} (h : s.hasReturned = true) :
    s.isAsleep = false := by
  cases s with
  | returned _ => rfl
  | _ => cases h

theorem isAsleep_wake (s : Submitter σ) : s.wake.isAsleep = false := by
  cases s <;> rfl

theorem exists_of_isAsleep {s : Submitter σ} (h : s.isAsleep = true) : ∃ task, s = .asleep task := by
  cases s with
  | asleep task => exact ⟨task, rfl⟩
  | _ => cases h

end Submitter

namespace Monitor

variable {m n : Monitor σ} {move : Move σ}

/-! ## Stages -/

/-- No submitter and no waiter is under way. -/
structure AllReturned (m : Monitor σ) : Prop where
  submitters : ∀ s ∈ m.submitters, s.hasReturned = true
  waiters : ∀ w ∈ m.waiters, w = .returned

theorem quiet_iff : m.quiet = true ↔ m.closer = .absent ∧ AllReturned m := by
  simp only [quiet, Bool.and_eq_true, decide_eq_true_eq, List.all_eq_true, and_assoc]
  exact and_congr_right (fun _ => ⟨fun h => ⟨h.1, h.2⟩, fun h => ⟨h.1, h.2⟩⟩)

/-- Where a monitor stands between a start and a stop. -/
inductive Stage (m : Monitor σ) : Prop where
  | opened (hrunning : m.pool.running = true) (hcloser : m.closer = .absent)
  | closing (hstopped : m.pool.running = false) (hcloser : m.closer ≠ .absent)
      (hreturned : AllReturned m) (hwoken : m.closer ≠ .wakingWorkers → Hand.asleep ∉ m.hands)
  | closed (hstopped : m.pool.running = false) (hcloser : m.closer = .absent)
      (hworkers : m.pool.workers = []) (hawake : ∀ s ∈ m.submitters, s.isAsleep = false)

theorem AllReturned.submitter {before after : List (Submitter σ)} {s : Submitter σ}
    (hm : AllReturned m) (hsubmitters : m.submitters = before ++ s :: after) :
    s.hasReturned = true :=
  hm.submitters s (by simp [hsubmitters])

theorem AllReturned.waiter {before after : List Waiter} {w : Waiter}
    (hm : AllReturned m) (hwaiters : m.waiters = before ++ w :: after) : w = .returned :=
  hm.waiters w (by simp [hwaiters])

theorem AllReturned.wakeOne {woken : Option Nat} {submitters : List (Submitter σ)}
    (hm : AllReturned m)
    (hwake : Monitor.wakeOne Submitter.isAsleep Submitter.wake woken m.submitters = some submitters) :
    submitters = m.submitters := by
  rcases wakeOne_cases hwake with ⟨-, hsame⟩ | ⟨before, s, after, hsubmitters, hasleep, -⟩
  · exact hsame
  · have hreturned := hm.submitter hsubmitters
    rw [Submitter.isAsleep_of_hasReturned hreturned] at hasleep
    cases hasleep

theorem AllReturned.step (hm : AllReturned m) (hcall : move.isCall = false)
    (h : Change m move n) : AllReturned n := by
  cases h with
  | called | awaited | cleared => cases hcall
  | refused hsubmitters | queued hsubmitters | lacksRoom hsubmitters | signalledWork hsubmitters
  | submitterStrays hsubmitters => cases hm.submitter hsubmitters
  | looked hwaiters | waiterStrays hwaiters => cases hm.waiter hwaiters
  | signalledRoom hhands hwake =>
    rw [hm.wakeOne hwake]
    exact ⟨hm.1, hm.2⟩
  | announced hhands =>
    refine ⟨hm.1, ?_⟩
    simp only [List.mem_map, forall_exists_index, and_imp, forall_apply_eq_imp_iff₂]
    intro w hw
    rw [hm.2 w hw]
    rfl
  | wokeSubmitters hwaking =>
    refine ⟨?_, hm.2⟩
    simp only [List.mem_map, forall_exists_index, and_imp, forall_apply_eq_imp_iff₂]
    intro s hs
    have hs' := hm.1 s hs
    cases s with
    | returned _ => rfl
    | _ => cases hs'
  | _ => exact ⟨hm.1, hm.2⟩

theorem asleep_notMem_split {before after : List Hand} {hand next : Hand}
    (hm : Hand.asleep ∉ before ++ hand :: after) (hnext : next ≠ .asleep) :
    Hand.asleep ∉ before ++ next :: after := by
  simp only [List.mem_append, List.mem_cons, not_or] at hm ⊢
  exact ⟨hm.1, hnext.symm, hm.2.2⟩

theorem asleep_notMem_map_wake (hands : List Hand) : Hand.asleep ∉ hands.map Hand.wake := by
  intro hmem
  obtain ⟨hand, -, hwake⟩ := List.mem_map.1 hmem
  cases hand <;> cases hwake

theorem Stage.step_opened (hrunning : m.pool.running = true) (hcloser : m.closer = .absent)
    (h : Change m move n) : Stage n := by
  cases h with
  | halted hquiet hpool =>
    obtain ⟨-, rfl⟩ := Pool.step_halt.1 hpool
    obtain ⟨-, hsubmitters, hwaiters⟩ := quiet_iff.1 hquiet
    exact .closing rfl (by simp) ⟨hsubmitters, hwaiters⟩ (fun hne => absurd rfl hne)
  | started hquiet hpool =>
    obtain ⟨-, rfl⟩ := Pool.step_start.1 hpool
    exact .opened rfl hcloser
  | cleared habsent hpool =>
    obtain rfl := Pool.step_clearErrors.1 hpool
    exact .opened hrunning hcloser
  | resized hquiet hpool =>
    obtain ⟨-, rfl⟩ := Pool.step_resize.1 hpool
    exact .opened hrunning hcloser
  | queued hsubmitters hpool =>
    obtain ⟨-, rfl⟩ := Pool.step_submit.1 hpool
    exact .opened hrunning hcloser
  | took hhands hpool =>
    obtain ⟨task, queue, -, -, rfl⟩ := Pool.step_take.1 hpool
    exact .opened hrunning hcloser
  | left hhands hpool =>
    obtain ⟨-, -, -, rfl⟩ := Pool.step_leave.1 hpool
    exact .opened hrunning hcloser
  | acted hhands hpool =>
    obtain ⟨task, action, rest, shared, -, -, rfl⟩ := Pool.step_act.1 hpool
    exact .opened hrunning hcloser
  | finished hhands hpool =>
    obtain ⟨task, -, rfl⟩ := Pool.step_finish.1 hpool
    exact .opened hrunning hcloser
  | wokeWorkers hwaking => rw [hcloser] at hwaking; cases hwaking
  | wokeSubmitters hwaking => rw [hcloser] at hwaking; cases hwaking
  | joined hjoining => rw [hcloser] at hjoining; cases hjoining
  | _ => exact .opened hrunning hcloser

theorem Stage.step_closing (hstopped : m.pool.running = false) (hcloser : m.closer ≠ .absent)
    (hreturned : AllReturned m) (hwoken : m.closer ≠ .wakingWorkers → Hand.asleep ∉ m.hands)
    (h : Change m move n) : Stage n := by
  have hcall : move.isCall = false := by
    cases h with
    | called habsent | awaited habsent | cleared habsent => exact absurd habsent hcloser
    | _ => rfl
  have hreturned' := hreturned.step hcall h
  cases h with
  | called | awaited | cleared => cases hcall
  | halted hquiet | started hquiet | resized hquiet => exact absurd (quiet_iff.1 hquiet).1 hcloser
  | refused hsubmitters | queued hsubmitters | lacksRoom hsubmitters | signalledWork hsubmitters
  | submitterStrays hsubmitters => cases hreturned.submitter hsubmitters
  | looked hwaiters | waiterStrays hwaiters => cases hreturned.waiter hwaiters
  | lacksWork hhands hpool hrunning => rw [hstopped] at hrunning; cases hrunning
  | took hhands hpool =>
    obtain ⟨task, queue, -, -, rfl⟩ := Pool.step_take.1 hpool
    rw [hhands] at hwoken
    exact .closing hstopped hcloser hreturned'
      (fun hne => asleep_notMem_split (hwoken hne) (by decide))
  | left hhands hpool =>
    obtain ⟨-, -, -, rfl⟩ := Pool.step_leave.1 hpool
    rw [hhands] at hwoken
    refine .closing hstopped hcloser hreturned' (fun hne => ?_)
    have hnone := hwoken hne
    simp only [List.mem_append, List.mem_cons, not_or] at hnone ⊢
    exact ⟨hnone.1, hnone.2.2⟩
  | signalledRoom hhands hwake =>
    rw [hhands] at hwoken
    exact .closing hstopped hcloser hreturned'
      (fun hne => asleep_notMem_split (hwoken hne) (by decide))
  | acted hhands hpool =>
    obtain ⟨task, action, rest, shared, -, -, rfl⟩ := Pool.step_act.1 hpool
    exact .closing hstopped hcloser hreturned' hwoken
  | finished hhands hpool =>
    obtain ⟨task, -, rfl⟩ := Pool.step_finish.1 hpool
    rw [hhands] at hwoken
    refine .closing hstopped hcloser hreturned' (fun hne => asleep_notMem_split (hwoken hne) ?_)
    split <;> decide
  | announced hhands =>
    rw [hhands] at hwoken
    exact .closing hstopped hcloser hreturned'
      (fun hne => asleep_notMem_split (hwoken hne) (by decide))
  | wokeWorkers hwaking =>
    exact .closing hstopped (by simp) hreturned' (fun _ => asleep_notMem_map_wake _)
  | wokeSubmitters hwaking =>
    exact .closing hstopped (by simp) hreturned' (fun _ => hwoken (by simp [hwaking]))
  | joined hjoining hworkers =>
    exact .closed hstopped rfl hworkers
      (fun s hs => Submitter.isAsleep_of_hasReturned (hreturned.1 s hs))
  | workerStrays hhands =>
    rw [hhands] at hwoken
    exact .closing hstopped hcloser hreturned'
      (fun hne => asleep_notMem_split (hwoken hne) (by decide))

theorem awake_split {before after : List (Submitter σ)} {s next : Submitter σ}
    (hm : ∀ t ∈ before ++ s :: after, t.isAsleep = false) (hnext : next.isAsleep = false) :
    ∀ t ∈ before ++ next :: after, t.isAsleep = false := by
  simp only [List.forall_mem_append, List.forall_mem_cons] at hm ⊢
  exact ⟨hm.1, hnext, hm.2.2⟩

theorem Stage.step_closed (hcrew : Crewed m) (hstopped : m.pool.running = false)
    (hcloser : m.closer = .absent) (hworkers : m.pool.workers = [])
    (hawake : ∀ s ∈ m.submitters, s.isAsleep = false) (h : Change m move n) : Stage n := by
  have hnone : m.hands = [] := hcrew.hands_eq_nil_iff.2 hworkers
  have hsplit {before after : List Hand} {hand : Hand} : m.hands ≠ before ++ hand :: after := by
    simp [hnone]
  cases h with
  | called =>
    refine .closed hstopped hcloser hworkers ?_
    rw [List.forall_mem_append, List.forall_mem_singleton]
    exact ⟨hawake, rfl⟩
  | awaited => exact .closed hstopped hcloser hworkers hawake
  | cleared habsent hpool =>
    obtain rfl := Pool.step_clearErrors.1 hpool
    exact .closed hstopped hcloser hworkers hawake
  | halted hquiet hpool =>
    obtain ⟨hrunning, -⟩ := Pool.step_halt.1 hpool
    rw [hstopped] at hrunning
    cases hrunning
  | started hquiet hpool =>
    obtain ⟨-, rfl⟩ := Pool.step_start.1 hpool
    exact .opened rfl hcloser
  | resized hquiet hpool =>
    obtain ⟨-, rfl⟩ := Pool.step_resize.1 hpool
    exact .closed hstopped hcloser hworkers hawake
  | refused hsubmitters =>
    rw [hsubmitters] at hawake
    exact .closed hstopped hcloser hworkers (awake_split hawake rfl)
  | queued hsubmitters hpool =>
    obtain ⟨⟨hrunning, -⟩, -⟩ := Pool.step_submit.1 hpool
    rw [hstopped] at hrunning
    cases hrunning
  | lacksRoom hsubmitters hrunning => rw [hstopped] at hrunning; cases hrunning
  | signalledWork hsubmitters =>
    rw [hsubmitters] at hawake
    exact .closed hstopped hcloser hworkers (awake_split hawake rfl)
  | took hhands => exact absurd hhands hsplit
  | lacksWork hhands => exact absurd hhands hsplit
  | left hhands => exact absurd hhands hsplit
  | signalledRoom hhands => exact absurd hhands hsplit
  | acted hhands => exact absurd hhands hsplit
  | finished hhands => exact absurd hhands hsplit
  | announced hhands => exact absurd hhands hsplit
  | workerStrays hhands => exact absurd hhands hsplit
  | looked => exact .closed hstopped hcloser hworkers hawake
  | waiterStrays => exact .closed hstopped hcloser hworkers hawake
  | wokeWorkers hwaking => rw [hcloser] at hwaking; cases hwaking
  | wokeSubmitters hwaking => rw [hcloser] at hwaking; cases hwaking
  | joined hjoining => rw [hcloser] at hjoining; cases hjoining
  | submitterStrays hsubmitters =>
    rw [hsubmitters] at hawake
    exact .closed hstopped hcloser hworkers (awake_split hawake rfl)

theorem Stage.step (hm : Stage m) (hcrew : Crewed m) (h : Change m move n) : Stage n := by
  cases hm with
  | opened hrunning hcloser => exact step_opened hrunning hcloser h
  | closing hstopped hcloser hreturned hwoken =>
    exact step_closing hstopped hcloser hreturned hwoken h
  | closed hstopped hcloser hworkers hawake =>
    exact step_closed hcrew hstopped hcloser hworkers hawake h

/-! ## Signals -/

theorem count_split (hand : Hand) (before after : List Hand) (next : Hand) :
    (before ++ next :: after).count hand =
      before.count hand + after.count hand + if next = hand then 1 else 0 := by
  rw [List.count_append, List.count_cons, Nat.add_assoc]
  simp only [beq_iff_eq]

theorem countP_split (test : Submitter σ → Bool) (before after : List (Submitter σ))
    (next : Submitter σ) :
    (before ++ next :: after).countP test =
      before.countP test + after.countP test + if test next = true then 1 else 0 := by
  rw [List.countP_append, List.countP_cons, Nat.add_assoc]

/-- Beside a worker asleep, every task that waits has a signal to be given or a worker that is about
to look. -/
def WorkSignalled (m : Monitor σ) : Prop :=
  0 < m.hands.count .asleep →
    m.pool.queue.length ≤ m.submitters.countP Submitter.isSignalling + m.hands.count .checking

/-- Beside a submitter asleep, every free place has a signal to be given or a submitter that is
about to look. -/
def RoomSignalled (m : Monitor σ) : Prop :=
  0 < m.submitters.countP Submitter.isAsleep →
    m.pool.capacity ≤ m.pool.queue.length + m.hands.count .signalling +
      m.submitters.countP Submitter.isChecking

/-- Beside a waiter asleep, an idle pool is about to be announced. -/
def IdleSignalled (m : Monitor σ) : Prop :=
  Waiter.asleep ∈ m.waiters → m.pool.isIdle = true → Hand.announcing ∈ m.hands

theorem WorkSignalled.step (hm : WorkSignalled m) (hcrew : Crewed m) (h : Change m move n) :
    WorkSignalled n := by
  cases h with
  | called =>
    simp only [WorkSignalled, countP_split, List.countP_nil, Submitter.isSignalling, reduceCtorEq,
      ↓reduceIte] at hm ⊢
    omega
  | awaited | looked | joined | waiterStrays => exact hm
  | cleared _ hpool =>
    obtain rfl := Pool.step_clearErrors.1 hpool
    exact hm
  | halted _ hpool =>
    obtain ⟨-, rfl⟩ := Pool.step_halt.1 hpool
    exact hm
  | started =>
    intro hasleep
    simp [List.count_replicate] at hasleep
  | resized _ hpool =>
    obtain ⟨-, rfl⟩ := Pool.step_resize.1 hpool
    exact hm
  | refused hsubmitters =>
    simp only [WorkSignalled, hsubmitters, countP_split, Submitter.isSignalling, reduceCtorEq]
      at hm ⊢
    exact hm
  | queued hsubmitters hpool =>
    obtain ⟨-, rfl⟩ := Pool.step_submit.1 hpool
    simp only [WorkSignalled, hsubmitters, countP_split, Submitter.isSignalling, reduceCtorEq,
      ↓reduceIte, List.length_append, List.length_singleton] at hm ⊢
    omega
  | lacksRoom hsubmitters =>
    simp only [WorkSignalled, hsubmitters, countP_split, Submitter.isSignalling] at hm ⊢
    exact hm
  | signalledWork hsubmitters hwake =>
    -- The signal is gone. Either the worker it wakes is about to look, or none was asleep.
    simp only [WorkSignalled, hsubmitters, countP_split, Submitter.isSignalling, reduceCtorEq,
      ↓reduceIte] at hm ⊢
    rcases wakeOne_cases hwake with ⟨hnone, rfl⟩ | ⟨before, hand, after, hhands, hasleep, rfl⟩
    · intro hpos
      simp only [List.any_eq_false, decide_eq_true_eq] at hnone
      exact absurd rfl (hnone _ (List.count_pos_iff.1 hpos))
    · obtain rfl : hand = .asleep := by simpa using hasleep
      simp only [hhands, count_split, Hand.wake, reduceCtorEq, ↓reduceIte] at hm ⊢
      omega
  | took hhands hpool =>
    obtain ⟨task, queue, -, hqueue, rfl⟩ := Pool.step_take.1 hpool
    simp only [WorkSignalled, hhands, hqueue, count_split, reduceCtorEq, ↓reduceIte,
      List.length_cons] at hm ⊢
    omega
  | lacksWork hhands hpool =>
    have hqueue := Pool.queue_eq_nil_of_step_take (hcrew.idle_of_checking hhands) hpool
    simp [WorkSignalled, hqueue]
  | left hhands hpool =>
    obtain ⟨-, -, hqueue, rfl⟩ := Pool.step_leave.1 hpool
    simp [WorkSignalled, hqueue]
  | signalledRoom hhands hwake =>
    simp only [WorkSignalled, hhands, count_split, reduceCtorEq, ↓reduceIte] at hm ⊢
    rcases wakeOne_cases hwake with ⟨-, rfl⟩ | ⟨before, s, after, hsubmitters, hasleep, rfl⟩
    · exact hm
    · obtain ⟨task, rfl⟩ := Submitter.exists_of_isAsleep hasleep
      simp only [hsubmitters, countP_split, Submitter.isSignalling, Submitter.wake] at hm ⊢
      exact hm
  | acted hhands hpool =>
    obtain ⟨task, action, rest, shared, -, -, rfl⟩ := Pool.step_act.1 hpool
    exact hm
  | @finished before after pool hhands hpool =>
    obtain ⟨task, -, rfl⟩ := Pool.step_finish.1 hpool
    by_cases hidle : (m.pool.conclude before.length task).isIdle = true
    · simp only [WorkSignalled, hhands, count_split, hidle, reduceCtorEq, ↓reduceIte] at hm ⊢
      exact hm
    · simp only [WorkSignalled, hhands, count_split, hidle, reduceCtorEq, ↓reduceIte] at hm ⊢
      exact fun hasleep => Nat.le_succ_of_le (hm hasleep)
  | announced hhands =>
    simp only [WorkSignalled, hhands, count_split, reduceCtorEq, ↓reduceIte] at hm ⊢
    omega
  | wokeWorkers =>
    intro hpos
    exact absurd (List.count_pos_iff.1 hpos) (asleep_notMem_map_wake _)
  | wokeSubmitters =>
    have hsame : (m.submitters.map Submitter.wake).countP Submitter.isSignalling =
        m.submitters.countP Submitter.isSignalling := by
      rw [List.countP_map]
      exact List.countP_congr (fun s _ => by cases s <;> rfl)
    rw [WorkSignalled, hsame]
    exact hm
  | submitterStrays hsubmitters =>
    simp only [WorkSignalled, hsubmitters, countP_split, Submitter.isSignalling] at hm ⊢
    exact hm
  | workerStrays hhands =>
    simp only [WorkSignalled, hhands, count_split, reduceCtorEq, ↓reduceIte] at hm ⊢
    omega

theorem RoomSignalled.step (hm : RoomSignalled m) (hstage : Stage m) (h : Change m move n) :
    RoomSignalled n := by
  cases h with
  | called =>
    simp only [RoomSignalled, List.countP_append, List.countP_singleton, Submitter.isAsleep,
      Submitter.isChecking, ↓reduceIte, Bool.false_eq_true] at hm ⊢
    omega
  | awaited | looked | joined | waiterStrays => exact hm
  | cleared _ hpool =>
    obtain rfl := Pool.step_clearErrors.1 hpool
    exact hm
  | halted _ hpool =>
    obtain ⟨-, rfl⟩ := Pool.step_halt.1 hpool
    exact hm
  | started hquiet hpool =>
    intro hpos
    obtain ⟨s, hs, hasleep⟩ := List.countP_pos_iff.1 hpos
    have hreturned := (quiet_iff.1 hquiet).2.submitters s hs
    rw [Submitter.isAsleep_of_hasReturned hreturned] at hasleep
    cases hasleep
  | resized _ hpool =>
    obtain ⟨-, rfl⟩ := Pool.step_resize.1 hpool
    exact hm
  | refused hsubmitters hstopped =>
    -- The only move that takes a look away and fills no place: nobody sleeps in a stopped pool.
    intro hpos
    obtain ⟨s, hs, hasleep⟩ := List.countP_pos_iff.1 hpos
    cases hstage with
    | opened hrunning => rw [hstopped] at hrunning; cases hrunning
    | closing _ _ hreturned => cases hreturned.submitter hsubmitters
    | closed _ _ _ hawake =>
      rw [hsubmitters] at hawake
      rw [awake_split hawake rfl s hs] at hasleep
      cases hasleep
  | queued hsubmitters hpool =>
    obtain ⟨-, rfl⟩ := Pool.step_submit.1 hpool
    simp only [RoomSignalled, hsubmitters, countP_split, Submitter.isAsleep, Submitter.isChecking,
      reduceCtorEq, ↓reduceIte, List.length_append, List.length_singleton] at hm ⊢
    omega
  | lacksRoom hsubmitters hrunning hfull =>
    intro _
    change m.pool.capacity ≤ m.pool.queue.length + _ + _
    omega
  | signalledWork hsubmitters hwake =>
    simp only [RoomSignalled, hsubmitters, countP_split, Submitter.isAsleep, Submitter.isChecking,
      reduceCtorEq, ↓reduceIte] at hm ⊢
    rcases wakeOne_cases hwake with ⟨-, rfl⟩ | ⟨before, hand, after, hhands, hasleep, rfl⟩
    · exact hm
    · obtain rfl : hand = .asleep := by simpa using hasleep
      simp only [hhands, count_split, Hand.wake, reduceCtorEq, ↓reduceIte] at hm ⊢
      exact hm
  | took hhands hpool =>
    -- The place that becomes free comes with a signal.
    obtain ⟨task, queue, -, hqueue, rfl⟩ := Pool.step_take.1 hpool
    simp only [RoomSignalled, hhands, hqueue, count_split, reduceCtorEq, ↓reduceIte,
      List.length_cons] at hm ⊢
    omega
  | lacksWork hhands =>
    simp only [RoomSignalled, hhands, count_split, reduceCtorEq, ↓reduceIte] at hm ⊢
    exact hm
  | left hhands hpool =>
    obtain ⟨-, -, -, rfl⟩ := Pool.step_leave.1 hpool
    simp only [RoomSignalled, hhands, count_split, reduceCtorEq, ↓reduceIte] at hm
    simp only [RoomSignalled, List.count_append]
    exact hm
  | signalledRoom hhands hwake =>
    simp only [RoomSignalled, hhands, count_split, reduceCtorEq, ↓reduceIte] at hm ⊢
    rcases wakeOne_cases hwake with ⟨hnone, rfl⟩ | ⟨before, s, after, hsubmitters, hasleep, rfl⟩
    · intro hpos
      obtain ⟨s, hs, hasleep⟩ := List.countP_pos_iff.1 hpos
      exact absurd hasleep (List.any_eq_false.1 hnone s hs)
    · obtain ⟨task, rfl⟩ := Submitter.exists_of_isAsleep hasleep
      simp only [hsubmitters, countP_split, Submitter.isAsleep, Submitter.isChecking, Submitter.wake,
        Bool.false_eq_true, ↓reduceIte] at hm ⊢
      omega
  | acted hhands hpool =>
    obtain ⟨task, action, rest, shared, -, -, rfl⟩ := Pool.step_act.1 hpool
    exact hm
  | @finished before after pool hhands hpool =>
    obtain ⟨task, -, rfl⟩ := Pool.step_finish.1 hpool
    by_cases hidle : (m.pool.conclude before.length task).isIdle = true
    · simp only [RoomSignalled, hhands, count_split, hidle, reduceCtorEq, ↓reduceIte] at hm ⊢
      exact hm
    · simp only [RoomSignalled, hhands, count_split, hidle, reduceCtorEq, ↓reduceIte] at hm ⊢
      exact hm
  | announced hhands =>
    simp only [RoomSignalled, hhands, count_split, reduceCtorEq, ↓reduceIte] at hm ⊢
    exact hm
  | wokeWorkers =>
    have hsame : (m.hands.map Hand.wake).count .signalling = m.hands.count .signalling := by
      rw [List.count, List.countP_map]
      exact List.countP_congr (fun hand _ => by cases hand <;> simp [Hand.wake])
    rw [RoomSignalled, hsame]
    exact hm
  | wokeSubmitters =>
    intro hpos
    obtain ⟨s, hs, hasleep⟩ := List.countP_pos_iff.1 hpos
    obtain ⟨t, -, rfl⟩ := List.mem_map.1 hs
    rw [Submitter.isAsleep_wake] at hasleep
    cases hasleep
  | submitterStrays hsubmitters =>
    simp only [RoomSignalled, hsubmitters, countP_split, Submitter.isAsleep, Submitter.isChecking,
      Bool.false_eq_true, ↓reduceIte] at hm ⊢
    omega
  | workerStrays hhands =>
    simp only [RoomSignalled, hhands, count_split, reduceCtorEq, ↓reduceIte] at hm ⊢
    exact hm

theorem announcing_mem_split {before after : List Hand} {hand next : Hand}
    (hm : Hand.announcing ∈ before ++ hand :: after) (hhand : hand ≠ .announcing) :
    Hand.announcing ∈ before ++ next :: after := by
  simp only [List.mem_append, List.mem_cons] at hm ⊢
  rcases hm with hbefore | rfl | hafter
  · exact .inl hbefore
  · exact absurd rfl hhand
  · exact .inr (.inr hafter)

theorem IdleSignalled.step (hm : IdleSignalled m) (h : Change m move n) : IdleSignalled n := by
  cases h with
  | called | refused | lacksRoom | wokeSubmitters | joined | submitterStrays => exact hm
  | awaited =>
    intro hasleep
    simp only [List.mem_append, List.mem_singleton, reduceCtorEq, or_false] at hasleep
    exact hm hasleep
  | cleared _ hpool =>
    obtain rfl := Pool.step_clearErrors.1 hpool
    exact hm
  | halted _ hpool =>
    obtain ⟨-, rfl⟩ := Pool.step_halt.1 hpool
    exact hm
  | started hquiet hpool =>
    intro hasleep
    cases (quiet_iff.1 hquiet).2.waiters _ hasleep
  | resized _ hpool =>
    obtain ⟨-, rfl⟩ := Pool.step_resize.1 hpool
    exact hm
  | queued hsubmitters hpool =>
    obtain ⟨-, rfl⟩ := Pool.step_submit.1 hpool
    intro _ hidle
    simp [Pool.isIdle] at hidle
  | signalledWork hsubmitters hwake =>
    rcases wakeOne_cases hwake with ⟨-, rfl⟩ | ⟨before, hand, after, hhands, hasleep, rfl⟩
    · exact hm
    · obtain rfl : hand = .asleep := by simpa using hasleep
      intro hwaiting hidle
      have hmem := hm hwaiting hidle
      rw [hhands] at hmem
      exact announcing_mem_split hmem (by decide)
  | took hhands hpool =>
    obtain ⟨task, queue, -, -, rfl⟩ := Pool.step_take.1 hpool
    intro _ hidle
    simp [Pool.isIdle] at hidle
  | lacksWork hhands =>
    intro hwaiting hidle
    have hmem := hm hwaiting hidle
    rw [hhands] at hmem
    exact announcing_mem_split hmem (by decide)
  | left hhands hpool =>
    obtain ⟨-, -, -, rfl⟩ := Pool.step_leave.1 hpool
    intro hwaiting hidle
    have hmem := hm hwaiting hidle
    rw [hhands] at hmem
    simpa using hmem
  | signalledRoom hhands hwake =>
    intro hwaiting hidle
    have hmem := hm hwaiting hidle
    rw [hhands] at hmem
    exact announcing_mem_split hmem (by decide)
  | acted hhands hpool =>
    obtain ⟨task, action, rest, shared, -, -, rfl⟩ := Pool.step_act.1 hpool
    exact hm
  | finished hhands hpool =>
    intro hwaiting hidle
    simp [hidle]
  | announced hhands =>
    intro hasleep
    obtain ⟨w, -, hwake⟩ := List.mem_map.1 hasleep
    cases w <;> cases hwake
  | @looked before after hwaiters =>
    intro hwaiting hidle
    refine hm ?_ hidle
    simp only [hidle, ↓reduceIte, List.mem_append, List.mem_cons, reduceCtorEq, false_or] at hwaiting
    rw [hwaiters]
    simpa using hwaiting
  | wokeWorkers =>
    intro hwaiting hidle
    exact List.mem_map.2 ⟨.announcing, hm hwaiting hidle, rfl⟩
  | workerStrays hhands =>
    intro hwaiting hidle
    have hmem := hm hwaiting hidle
    rw [hhands] at hmem
    exact announcing_mem_split hmem (by decide)
  | @waiterStrays before after hwaiters =>
    intro hwaiting hidle
    refine hm ?_ hidle
    rw [hwaiters]
    simp

/-! ## Runs -/

/-- What is known of a monitor after any moves. -/
structure Sane (m : Monitor σ) : Prop where
  sound : m.pool.Sound
  tended : m.pool.Tended
  crewed : Crewed m
  stage : Stage m
  work : WorkSignalled m
  room : RoomSignalled m
  idle : IdleSignalled m

theorem Sane.step (hm : Sane m) (h : m.step move = some n) : Sane n := by
  have hchange := change_of_step h
  have hpool : n.pool.Sound ∧ n.pool.Tended := by
    rcases hchange.pool with ⟨event, -, hevent⟩ | ⟨-, hsame⟩
    · exact ⟨hm.sound.step hevent, hm.tended.step hm.sound hevent⟩
    · rw [hsame]
      exact ⟨hm.sound, hm.tended⟩
  exact {
    sound := hpool.1
    tended := hpool.2
    crewed := hm.crewed.step hchange
    stage := hm.stage.step hm.crewed hchange
    work := hm.work.step hm.crewed hchange
    room := hm.room.step hm.stage hchange
    idle := hm.idle.step hchange }

theorem sane_create (size capacity : Nat) (shared : σ) :
    Sane (ofPool (Pool.create size capacity shared)) where
  sound := Pool.sound_create size capacity shared
  tended := fun hqueue => absurd rfl hqueue
  crewed := crewed_ofPool (fun _ hworker => List.eq_of_mem_replicate hworker)
  stage := .opened rfl rfl
  work := fun _ => Nat.zero_le _
  room := fun hasleep => absurd hasleep (Nat.lt_irrefl 0)
  idle := fun hasleep => absurd hasleep List.not_mem_nil

theorem sane_of_run {size capacity : Nat} {shared : σ} {moves : List (Move σ)}
    (hrun : run moves (ofPool (Pool.create size capacity shared)) = some m) : Sane m :=
  run_induction Sane.step (sane_create size capacity shared) hrun

end Monitor

end PointTiles
