import PointTiles.Proofs.Pool.Moves
import PointTiles.Proofs.Pool.Wakeups

/-! # The threads of a pool go on

* `Move.isOwn`: what a thread under way does of itself. New calls are not, nor is waking without a
  signal.
* `Pending`: a task is not ended or a call has not returned.
* `Lively`, `Sane.lively`: then some thread can go on, if the tasks being done can (`Unblocked`).
* `weight`, `weight_lt_of_step`: own moves come to an end where no calls come in.
* `no_lost_wakeup`: both, and who wakes those that sleep beside something to do.
-/

namespace PointTiles
set_option autoImplicit false

-- Sums of numbers begin at the zero of the core library, whatever else is imported.
attribute [local instance (high)] Zero.ofOfNat0

variable {σ : Type}

/-- As long as tasks are being done, one of them is: it has come to its end, or its next action can
be done. -/
def Pool.Unblocked (p : Pool σ) : Prop :=
  p.executing ≠ [] → ∃ task rest, Worker.busy task rest ∈ p.workers ∧
    ∀ action ∈ rest.head?, ∃ shared, action p.shared = some shared

namespace Monitor

variable {m n : Monitor σ} {move : Move σ}

/-- What a thread under way does of itself. -/
def Move.isOwn : Move σ → Bool
  | .submitter _ | .signalWork _ _ | .worker _ | .signalRoom _ _ | .act _ | .finish _ | .announce _
  | .waiter _ | .closer => true
  | _ => false

/-- A task that was accepted has not ended, or a call has not returned. -/
def Pending (m : Monitor σ) : Prop :=
  (m.pool.queue ≠ [] ∨ m.pool.executing ≠ []) ∨ (∃ s ∈ m.submitters, s.hasReturned = false) ∨
    (∃ w ∈ m.waiters, w ≠ .returned) ∨ m.closer ≠ .absent

/-! ## Threads that can go on -/

theorem exists_submitter_step {task : Pool.Task σ} (hmem : .checking task ∈ m.submitters) :
    ∃ i next, m.step (.submitter i) = some next := by
  obtain ⟨i, hi⟩ := List.mem_iff_getElem?.1 hmem
  exact ⟨i, _, by rw [step, hi]⟩

theorem exists_signalWork_step (hmem : .signalling ∈ m.submitters) :
    ∃ i woken next, m.step (.signalWork i woken) = some next := by
  obtain ⟨i, hi⟩ := List.mem_iff_getElem?.1 hmem
  obtain ⟨woken, hands, hwake⟩ := exists_wakeOne (· = .asleep) Hand.wake m.hands
  exact ⟨i, woken, _, by simp only [step, hi, hwake, Option.map_some]; rfl⟩

theorem exists_waiter_step (hmem : .checking ∈ m.waiters) :
    ∃ i next, m.step (.waiter i) = some next := by
  obtain ⟨i, hi⟩ := List.mem_iff_getElem?.1 hmem
  exact ⟨i, _, by rw [step, hi]⟩

theorem exists_signalRoom_step (hmem : .signalling ∈ m.hands) :
    ∃ w woken next, m.step (.signalRoom w woken) = some next := by
  obtain ⟨w, hw⟩ := List.mem_iff_getElem?.1 hmem
  obtain ⟨woken, submitters, hwake⟩ :=
    exists_wakeOne Submitter.isAsleep Submitter.wake m.submitters
  exact ⟨w, woken, _, by simp only [step, hw, hwake, Option.map_some]; rfl⟩

theorem exists_announce_step (hmem : .announcing ∈ m.hands) :
    ∃ w next, m.step (.announce w) = some next := by
  obtain ⟨w, hw⟩ := List.mem_iff_getElem?.1 hmem
  exact ⟨w, _, by rw [step, hw]⟩

theorem exists_worker_step (hcrew : Crewed m) (hmem : .checking ∈ m.hands) :
    ∃ w next, m.step (.worker w) = some next := by
  obtain ⟨w, hw⟩ := List.mem_iff_getElem?.1 hmem
  obtain ⟨before, after, hhands, rfl⟩ := Places.exists_split hw
  have hidle := hcrew.idle_of_checking hhands
  refine ⟨before.length, ?_⟩
  simp only [step, hw, checkWorker]
  cases htake : m.pool.step (.take before.length) with
  | some pool => exact ⟨_, rfl⟩
  | none =>
    have hqueue := Pool.queue_eq_nil_of_step_take hidle htake
    cases hrunning : m.pool.running with
    | true => exact ⟨_, rfl⟩
    | false =>
      have hleave := Pool.step_leave.2 ⟨hidle, hrunning, hqueue, rfl⟩
      exact ⟨_, by rw [hleave]; rfl⟩

theorem exists_closer_step (hcloser : m.closer ≠ .absent)
    (hjoining : m.closer = .joining → m.pool.workers = []) :
    ∃ next, m.step .closer = some next := by
  cases hc : m.closer with
  | absent => exact absurd hc hcloser
  | wakingWorkers => exact ⟨_, by simp only [step, hc]; rfl⟩
  | wakingSubmitters => exact ⟨_, by simp only [step, hc]; rfl⟩
  | joining => exact ⟨_, by simp only [step, hc, hjoining hc, List.isEmpty_nil]; rfl⟩

def Lively (m : Monitor σ) : Prop := ∃ move next, move.isOwn = true ∧ m.step move = some next

theorem lively_of_submitter {s : Submitter σ} (hmem : s ∈ m.submitters)
    (hreturned : s.hasReturned = false) (hasleep : s.isAsleep = false) : Lively m := by
  cases s with
  | checking task =>
    obtain ⟨i, next, hstep⟩ := exists_submitter_step hmem
    exact ⟨_, next, rfl, hstep⟩
  | asleep task => cases hasleep
  | signalling =>
    obtain ⟨i, woken, next, hstep⟩ := exists_signalWork_step hmem
    exact ⟨_, next, rfl, hstep⟩
  | returned _ => cases hreturned

theorem lively_of_busy (hcrew : Crewed m) {task : Pool.Task σ} {rest : List (σ → Option σ)}
    (hmem : .busy task rest ∈ m.pool.workers)
    (hnext : ∀ action ∈ rest.head?, ∃ shared, action m.pool.shared = some shared) : Lively m := by
  obtain ⟨w, hw⟩ := List.mem_iff_getElem?.1 hmem
  obtain ⟨before, after, hand, before', after', hworkers, hhands, rfl, hlen, -, hstands, -⟩ :=
    Places.forall₂_split hcrew.flip hw
  have hplace : m.hands[before.length]? = some hand := by rw [hhands, ← hlen, Places.getElem?_split]
  cases hstands with
  | signalling =>
    obtain ⟨w, woken, next, hstep⟩ := exists_signalRoom_step (m := m) (by simp [hhands])
    exact ⟨_, next, rfl, hstep⟩
  | working =>
    cases rest with
    | nil =>
      have hfinish := Pool.step_finish.2 ⟨task, hw, rfl⟩
      exact ⟨.finish before.length, _, rfl, by
        simp only [step, hplace, hfinish, Option.map_some]; rfl⟩
    | cons action rest =>
      obtain ⟨shared, hshared⟩ := hnext action rfl
      have hact := Pool.step_act.2 ⟨task, action, rest, shared, hw, hshared, rfl⟩
      exact ⟨.act before.length, _, rfl, by simp only [step, hplace, hact, Option.map_some]; rfl⟩

theorem lively_of_hand (hcrew : Crewed m) (htasks : m.pool.Unblocked) {hand : Hand}
    (hmem : hand ∈ m.hands) (hawake : hand ≠ .asleep) : Lively m := by
  cases hand with
  | asleep => exact absurd rfl hawake
  | checking =>
    obtain ⟨w, next, hstep⟩ := exists_worker_step hcrew hmem
    exact ⟨_, next, rfl, hstep⟩
  | signalling =>
    obtain ⟨w, woken, next, hstep⟩ := exists_signalRoom_step hmem
    exact ⟨_, next, rfl, hstep⟩
  | announcing =>
    obtain ⟨w, next, hstep⟩ := exists_announce_step hmem
    exact ⟨_, next, rfl, hstep⟩
  | working =>
    obtain ⟨before, after, hhands⟩ := List.append_of_mem hmem
    obtain ⟨before', worker, after', hworkers, -, -, hworker, -⟩ := hcrew.split hhands
    cases hworker
    obtain ⟨task, rest, hbusy, hnext⟩ := htasks (by simp [Pool.executing, hworkers])
    exact lively_of_busy hcrew hbusy hnext

/-! ## Those asleep are seen to -/

/-- A submitter asleep beside a free place: one is about to look, or to be woken. -/
theorem RoomSignalled.exists_step (hm : RoomSignalled m) {task : Pool.Task σ}
    (hasleep : .asleep task ∈ m.submitters) (hfree : m.pool.queue.length < m.pool.capacity) :
    (∃ i next, m.step (.submitter i) = some next) ∨
      ∃ w woken next, m.step (.signalRoom w woken) = some next := by
  have hcount : m.pool.capacity ≤ _ := hm (List.countP_pos_iff.2 ⟨_, hasleep, rfl⟩)
  by_cases hsignals : 0 < m.hands.count .signalling
  · exact .inr (exists_signalRoom_step (List.count_pos_iff.1 hsignals))
  · have hlooking : 0 < m.submitters.countP Submitter.isChecking := by omega
    obtain ⟨s, hs, hchecking⟩ := List.countP_pos_iff.1 hlooking
    cases s with
    | checking task => exact .inl (exists_submitter_step hs)
    | _ => cases hchecking

/-- A worker asleep beside a task: one is about to look, or to be woken. -/
theorem WorkSignalled.exists_step (hm : WorkSignalled m) (hcrew : Crewed m)
    (hasleep : .asleep ∈ m.hands) (hqueue : m.pool.queue ≠ []) :
    (∃ w next, m.step (.worker w) = some next) ∨
      ∃ i woken next, m.step (.signalWork i woken) = some next := by
  have hcount : m.pool.queue.length ≤ _ := hm (List.count_pos_iff.2 hasleep)
  have hlength := List.length_pos_iff.2 hqueue
  by_cases hlooking : 0 < m.hands.count .checking
  · exact .inl (exists_worker_step hcrew (List.count_pos_iff.1 hlooking))
  · have hsignals : 0 < m.submitters.countP Submitter.isSignalling := by omega
    obtain ⟨s, hs, hsignalling⟩ := List.countP_pos_iff.1 hsignals
    cases s with
    | signalling => exact .inr (exists_signalWork_step hs)
    | _ => cases hsignalling

/-- A pool is not stopped while a submitter is under way, and a stopped pool puts none to sleep. -/
theorem Sane.running_of_asleep (hm : Sane m) {task : Pool.Task σ}
    (hasleep : .asleep task ∈ m.submitters) : m.pool.running = true := by
  cases hm.stage with
  | opened hrunning => exact hrunning
  | closing _ _ hreturned => cases hreturned.submitters _ hasleep
  | closed _ _ _ hawake => cases hawake _ hasleep

/-- A worker asleep in a pool that is stopped: the workers are about to be woken. -/
theorem Sane.wakingWorkers_of_asleep (hm : Sane m) (hasleep : .asleep ∈ m.hands)
    (hstopped : m.pool.running = false) :
    m.closer = .wakingWorkers ∧ ∃ next, m.step .closer = some next := by
  cases hm.stage with
  | opened hrunning =>
    rw [hstopped] at hrunning
    cases hrunning
  | closed _ _ hworkers =>
    rw [hm.crewed.hands_eq_nil_iff.2 hworkers] at hasleep
    cases hasleep
  | closing _ hcloser _ hwoken =>
    have hwaking : m.closer = .wakingWorkers := by
      by_contra hne
      exact hwoken hne hasleep
    refine ⟨hwaking, exists_closer_step hcloser (fun hjoining => ?_)⟩
    rw [hwaking] at hjoining
    cases hjoining

/-! ## Nobody waits for nothing -/

theorem Sane.isIdle_of_not_lively (hm : Sane m) (htasks : m.pool.Unblocked) (hstuck : ¬ Lively m) :
    (∀ hand ∈ m.hands, hand = .asleep) ∧ m.pool.queue = [] ∧ m.pool.executing = [] := by
  have hasleep : ∀ hand ∈ m.hands, hand = .asleep := by
    intro hand hmem
    by_contra hawake
    exact hstuck (lively_of_hand hm.crewed htasks hmem hawake)
  refine ⟨hasleep, ?_, ?_⟩
  · -- A task that waits has a worker, asleep like all the others, and so it has been signalled.
    by_contra hqueue
    have hhands : m.hands ≠ [] :=
      fun hnil => hm.tended hqueue (hm.crewed.hands_eq_nil_iff.1 hnil)
    obtain ⟨hand, hmem⟩ := List.exists_mem_of_ne_nil _ hhands
    obtain rfl := hasleep hand hmem
    rcases hm.work.exists_step hm.crewed hmem hqueue with ⟨w, next, hstep⟩ | ⟨i, woken, next, hstep⟩
    · exact hstuck ⟨_, next, rfl, hstep⟩
    · exact hstuck ⟨_, next, rfl, hstep⟩
  · by_contra hexecuting
    obtain ⟨task, rest, hmem, hnext⟩ := htasks hexecuting
    exact hstuck (lively_of_busy hm.crewed hmem hnext)

theorem Sane.lively (hm : Sane m) (htasks : m.pool.Unblocked) (hpending : Pending m) :
    Lively m := by
  by_contra hstuck
  -- All workers sleep beside an empty queue. Whoever is still under way is asleep as well, beside a
  -- free place or an idle pool, or waits for workers that have been woken.
  obtain ⟨hasleep, hqueue, hexecuting⟩ := hm.isIdle_of_not_lively htasks hstuck
  rcases hpending with (hne | hne) | ⟨s, hs, hreturned⟩ | ⟨w, hw, hreturned⟩ | hcloser
  · exact hne hqueue
  · exact hne hexecuting
  · cases hsleeps : s.isAsleep with
    | false => exact hstuck (lively_of_submitter hs hreturned hsleeps)
    | true =>
      obtain ⟨task, rfl⟩ := Submitter.exists_of_isAsleep hsleeps
      have hfree : m.pool.queue.length < m.pool.capacity := by
        rw [hqueue]
        exact hm.sound.capacity_pos
      rcases hm.room.exists_step hs hfree with ⟨i, next, hstep⟩ | ⟨v, woken, next, hstep⟩
      · exact hstuck ⟨_, next, rfl, hstep⟩
      · exact hstuck ⟨_, next, rfl, hstep⟩
  · cases w with
    | checking =>
      obtain ⟨i, next, hstep⟩ := exists_waiter_step hw
      exact hstuck ⟨_, next, rfl, hstep⟩
    | returned => exact hreturned rfl
    | asleep =>
      have hidle : m.pool.isIdle = true := by
        simp [Pool.isIdle, hqueue, hm.sound.outstanding, hexecuting]
      obtain ⟨v, next, hstep⟩ := exists_announce_step (hm.idle hw hidle)
      exact hstuck ⟨_, next, rfl, hstep⟩
  · have hworkers : m.closer = .joining → m.pool.workers = [] := by
      intro hjoining
      refine hm.crewed.hands_eq_nil_iff.1 (List.eq_nil_iff_forall_not_mem.2 (fun hand hmem => ?_))
      cases hm.stage with
      | opened _ habsent => exact hcloser habsent
      | closed _ habsent => exact hcloser habsent
      | closing _ _ _ hwoken =>
        exact hwoken (by simp [hjoining]) (hasleep hand hmem ▸ hmem)
    obtain ⟨next, hstep⟩ := Monitor.exists_closer_step hcloser hworkers
    exact hstuck ⟨_, next, rfl, hstep⟩

/-! ## Own moves come to an end -/

/-- What is left to do for a submitter whose task, once queued, costs the others so much. -/
def submitterWeight (waiters : Nat) : Submitter σ → Nat
  | .checking task => task.actions.length + waiters + 8
  | .asleep task => task.actions.length + waiters + 7
  | .signalling => 2
  | .returned _ => 0

def handWeight (waiters : Nat) : Hand → Nat
  | .checking => 1
  | .asleep => 0
  | .signalling => waiters + 4
  | .working => waiters + 2
  | .announcing => waiters + 2

def waiterWeight : Waiter → Nat
  | .checking => 1
  | _ => 0

def closerWeight (submitters hands : Nat) : Closer → Nat
  | .absent => 0
  | .joining => 1
  | .wakingSubmitters => submitters + 2
  | .wakingWorkers => submitters + hands + 3

/-- How many own moves there can be before the next call. The moves of the pool come first; on top
of them each task costs its signals, the wakeup of every waiter, and the looks of those woken. -/
def weight (m : Monitor σ) : Nat :=
  m.pool.weight + m.pool.queue.length * (m.waiters.length + 3) +
    (m.hands.map (handWeight m.waiters.length)).sum +
    (m.submitters.map (submitterWeight m.waiters.length)).sum +
    (m.waiters.map waiterWeight).sum + closerWeight m.submitters.length m.hands.length m.closer

theorem sum_split {β : Type} (f : β → Nat) (before after : List β) (b : β) :
    ((before ++ b :: after).map f).sum = (before.map f).sum + (after.map f).sum + f b := by
  simp only [List.map_append, List.map_cons, List.sum_append, List.sum_cons]
  omega

theorem closerWeight_le (submitters : Nat) (closer : Closer) {hands hands' : Nat}
    (h : hands ≤ hands') :
    closerWeight submitters hands closer ≤ closerWeight submitters hands' closer := by
  cases closer with
  | wakingWorkers => exact Nat.add_le_add_right (Nat.add_le_add_left h _) 3
  | _ => exact Nat.le_refl _

/-- To wake threads costs one look for each. -/
theorem sum_wake_le {β : Type} (f : β → Nat) (wake : β → β) (hwake : ∀ b, f (wake b) ≤ f b + 1)
    (threads : List β) :
    ((threads.map wake).map f).sum ≤ (threads.map f).sum + threads.length := by
  induction threads with
  | nil => exact Nat.le_refl _
  | cons b threads ih =>
    have hb := hwake b
    simp only [List.map_cons, List.sum_cons, List.length_cons]
    omega

theorem submitterWeight_wake (waiters : Nat) (s : Submitter σ) :
    submitterWeight waiters s.wake ≤ submitterWeight waiters s + 1 := by
  cases s <;> simp [Submitter.wake, submitterWeight]

theorem handWeight_wake (waiters : Nat) (hand : Hand) :
    handWeight waiters hand.wake ≤ handWeight waiters hand + 1 := by
  cases hand <;> simp [Hand.wake, handWeight]

theorem waiterWeight_wake (w : Waiter) : waiterWeight w.wake ≤ waiterWeight w + 1 := by
  cases w <;> simp [Waiter.wake, waiterWeight]

theorem sum_wakeOne_le {β : Type} (f : β → Nat) {isAsleep : β → Bool} {wake : β → β}
    {woken : Option Nat} {threads threads' : List β} (hwake : ∀ b, f (wake b) ≤ f b + 1)
    (h : wakeOne isAsleep wake woken threads = some threads') :
    (threads'.map f).sum ≤ (threads.map f).sum + 1 ∧ threads'.length = threads.length := by
  rcases wakeOne_cases h with ⟨-, rfl⟩ | ⟨before, b, after, rfl, -, rfl⟩
  · exact ⟨Nat.le_succ _, rfl⟩
  · have hb := hwake b
    rw [sum_split, sum_split]
    exact ⟨by omega, by simp⟩

theorem weight_lt_of_step (hown : move.isOwn = true) (h : m.step move = some n) :
    n.weight < m.weight := by
  cases change_of_step h with
  | called | awaited | cleared | halted | started | resized | submitterStrays | workerStrays
  | waiterStrays => cases hown
  | refused hsubmitters =>
    simp only [weight, hsubmitters, sum_split, submitterWeight, List.length_append, List.length_cons]
    omega
  | queued hsubmitters hpool =>
    have hweight := Pool.weight_submit hpool
    obtain ⟨-, rfl⟩ := Pool.step_submit.1 hpool
    simp only [weight, hweight, hsubmitters, sum_split, submitterWeight, List.length_append,
      List.length_cons, List.length_nil, Nat.add_mul]
    omega
  | lacksRoom hsubmitters =>
    simp only [weight, hsubmitters, sum_split, submitterWeight, List.length_append, List.length_cons]
    omega
  | signalledWork hsubmitters hwake =>
    obtain ⟨hsum, hlength⟩ := sum_wakeOne_le _ (handWeight_wake m.waiters.length) hwake
    simp only [weight, hsubmitters, sum_split, submitterWeight, List.length_append, List.length_cons,
      hlength]
    omega
  | took hhands hpool =>
    have hweight := Pool.weight_of_step rfl hpool
    obtain ⟨task, queue, -, hqueue, rfl⟩ := Pool.step_take.1 hpool
    simp only [weight, hweight, hhands, hqueue, sum_split, handWeight, List.length_append,
      List.length_cons, Nat.add_mul]
    omega
  | lacksWork hhands =>
    simp only [weight, hhands, sum_split, handWeight, List.length_append, List.length_cons]
    omega
  | @left before after pool hhands hpool =>
    have hweight := Pool.weight_of_step rfl hpool
    obtain ⟨-, -, -, rfl⟩ := Pool.step_leave.1 hpool
    have hcloser := closerWeight_le m.submitters.length m.closer
      (show (before ++ after).length ≤ m.hands.length by rw [hhands]; simp)
    have hsum := sum_split (handWeight m.waiters.length) before after .checking
    simp only [weight, hweight, hhands, List.map_append, List.sum_append] at hsum hcloser ⊢
    omega
  | signalledRoom hhands hwake =>
    obtain ⟨hsum, hlength⟩ := sum_wakeOne_le _ (submitterWeight_wake m.waiters.length) hwake
    simp only [weight, hhands, sum_split, handWeight, List.length_append, List.length_cons, hlength]
    omega
  | acted hhands hpool =>
    have hweight := Pool.weight_of_step rfl hpool
    obtain ⟨task, action, rest, shared, -, -, rfl⟩ := Pool.step_act.1 hpool
    simp only [weight, hweight]
    omega
  | @finished before after pool hhands hpool =>
    have hweight := Pool.weight_of_step rfl hpool
    have hnext : handWeight m.waiters.length (if pool.isIdle then .announcing else .checking) ≤
        m.waiters.length + 2 := by
      split <;> simp [handWeight]
    obtain ⟨task, -, rfl⟩ := Pool.step_finish.1 hpool
    simp only [weight, hweight, hhands, sum_split, handWeight, List.length_append, List.length_cons,
      Pool.conclude] at hnext ⊢
    omega
  | announced hhands =>
    have hsum := sum_wake_le _ _ waiterWeight_wake m.waiters
    simp only [weight, hhands, sum_split, handWeight, List.length_append, List.length_cons,
      List.length_map]
    omega
  | looked hwaiters =>
    have hnext : waiterWeight (if m.pool.isIdle then .returned else .asleep) = 0 := by
      split <;> rfl
    have hchecking : waiterWeight .checking = 1 := rfl
    simp only [weight, hwaiters, sum_split, hnext, hchecking, List.length_append, List.length_cons]
    omega
  | wokeWorkers hcloser =>
    have hsum := sum_wake_le _ _ (handWeight_wake m.waiters.length) m.hands
    simp only [weight, hcloser, closerWeight]
    omega
  | wokeSubmitters hcloser =>
    have hsum := sum_wake_le _ _ (submitterWeight_wake m.waiters.length) m.submitters
    simp only [weight, hcloser, closerWeight]
    omega
  | joined hcloser =>
    simp only [weight, hcloser, closerWeight]
    omega

theorem length_le_weight {later : List (Move σ)} (hown : ∀ move ∈ later, move.isOwn = true)
    (hrun : run later m = some n) : later.length ≤ m.weight := by
  induction later generalizing m with
  | nil => exact Nat.zero_le _
  | cons move later ih =>
    obtain ⟨next, hnext, hrest⟩ := Option.bind_eq_some_iff.1 hrun
    have hlater := ih (fun move hmove => hown move (List.mem_cons_of_mem _ hmove)) hrest
    have hweight := weight_lt_of_step (hown move List.mem_cons_self) hnext
    rw [List.length_cons]
    omega

/-- In every state that a pool can come to, with any number of callers: while an accepted task has not
ended or a call has not returned, some thread under way can go on, if the tasks being done can.

A submitter sleeps only while the pool is running, and beside a free place a submitter is about to
look at the queue or a worker is about to wake one. A worker sleeps beside a task only where a
worker is about to look or a submitter is about to wake one, and in a stopped pool only until the
caller that stops it has woken the workers. A waiter sleeps beside an idle pool only where a worker
is about to announce it.

Where no more calls come in, all this takes no more moves than the weight says, so that nobody sleeps
on. -/
theorem no_lost_wakeup {size capacity : Nat} {shared : σ} {moves : List (Move σ)}
    (hrun : run moves (ofPool (Pool.create size capacity shared)) = some m) :
    (m.pool.Unblocked → Pending m → ∃ move next, move.isOwn = true ∧ m.step move = some next) ∧
      (∀ task, .asleep task ∈ m.submitters → m.pool.running = true) ∧
      (∀ task, .asleep task ∈ m.submitters → m.pool.queue.length < m.pool.capacity →
        (∃ i next, m.step (.submitter i) = some next) ∨
          ∃ w woken next, m.step (.signalRoom w woken) = some next) ∧
      (.asleep ∈ m.hands → m.pool.queue ≠ [] →
        (∃ w next, m.step (.worker w) = some next) ∨
          ∃ i woken next, m.step (.signalWork i woken) = some next) ∧
      (.asleep ∈ m.hands → m.pool.running = false →
        m.closer = .wakingWorkers ∧ ∃ next, m.step .closer = some next) ∧
      (.asleep ∈ m.waiters → m.pool.isIdle = true → ∃ w next, m.step (.announce w) = some next) ∧
      ∀ later n, (∀ move ∈ later, Move.isOwn move = true) → run later m = some n →
        later.length ≤ m.weight := by
  have hm := sane_of_run hrun
  refine ⟨hm.lively, fun task hasleep => ?_, fun task hasleep hfree => hm.room.exists_step hasleep hfree,
    fun hasleep hqueue => hm.work.exists_step hm.crewed hasleep hqueue,
    fun hasleep hstopped => ?_, fun hasleep hidle => exists_announce_step (hm.idle hasleep hidle),
    fun later n hown hlater => length_le_weight hown hlater⟩
  · exact hm.running_of_asleep hasleep
  · exact hm.wakingWorkers_of_asleep hasleep hstopped

/-- One worker and a queue of one place. The worker has taken the second task and is about to wake a
submitter; the third submitter sleeps beside the free place, and a waiter waits. -/
theorem no_lost_wakeup_beside_free_place :
    let task : Pool.Task Unit := ⟨[some], none⟩
    let moves : List (Move Unit) := [.call task, .call task, .call task, .await, .submitter 0,
      .signalWork 0 none, .worker 0, .submitter 1, .submitter 2, .signalRoom 0 (some 2),
      .submitter 2, .act 0, .finish 0, .waiter 0, .worker 0]
    ∃ m, run moves (ofPool (Pool.create 1 1 ())) = some m ∧ .asleep task ∈ m.submitters ∧
      m.pool.queue.length < m.pool.capacity ∧ .asleep ∈ m.waiters ∧ Pending m ∧
      (∃ move next, move.isOwn = true ∧ m.step move = some next) ∧
      ((∃ i next, m.step (.submitter i) = some next) ∨
        ∃ w woken next, m.step (.signalRoom w woken) = some next) := by
  intro task moves
  obtain ⟨m, hrun, hview⟩ : ∃ m, run moves (ofPool (Pool.create 1 1 ())) = some m ∧
      (m.submitters, m.pool.workers, m.waiters, m.pool.queue, m.pool.capacity) =
        ([.returned true, .signalling, .asleep task], [.busy task task.actions], [.asleep], [], 1) := by
    -- Evaluation is slow under local names.
    simp only [task, moves]
    exact Option.map_eq_some_iff.1 rfl
  simp only [Prod.mk.injEq] at hview
  obtain ⟨hsubmitters, hworkers, hwaiters, hqueue, hcapacity⟩ := hview
  have hfree : m.pool.queue.length < m.pool.capacity := by simp [hqueue, hcapacity]
  obtain ⟨hlively, -, hroom, -⟩ := no_lost_wakeup hrun
  have hasleep : .asleep task ∈ m.submitters := by simp [hsubmitters]
  have hpending : Pending m := .inr (.inl ⟨_, hasleep, rfl⟩)
  have hunblocked : m.pool.Unblocked := by
    intro _
    refine ⟨task, task.actions, by simp [hworkers], fun action haction => ?_⟩
    cases haction
    exact ⟨m.pool.shared, rfl⟩
  exact ⟨m, hrun, hasleep, hfree, by simp [hwaiters], hpending, hlively hunblocked hpending,
    hroom task hasleep hfree⟩

end Monitor

end PointTiles
