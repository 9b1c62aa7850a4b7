import PointTiles.Proofs.Pool.Ledger
import PointTiles.Proofs.Pool.Threads

/-! # Waiting for an idle pool

A log is kept beside a monitor: the ledger of its pool, each submitter's task with the ticket it was
given, and the tickets of the tasks that have ended since the messages were last dropped.

* `Pool.Reported`: the messages of a pool are those of the tasks that were reported.
* `Monitor.Log`, `Log.record`, `Monitor.keep`: the log along a run.
* `Monitor.Books`: the log agrees with the monitor. A submitter has a ticket exactly when its task
  was accepted, and no two have the same.
* `await_idle_barrier`: when a waiter returns, every task that was submitted before it came has ended
  and its message is there.
-/

namespace PointTiles
set_option autoImplicit false

variable {σ : Type}

namespace Pool

variable {p q : Pool σ} {l : Ledger σ}

/-! ## Messages -/

def Ledger.reportedAfter (event : Event σ) (l : Ledger σ) (reported : List Nat) : List Nat :=
  match event with
  | .finish w => reported ++ (l.held[w]?.join).toList
  | .clearErrors => []
  | _ => reported

/-- The messages are those of the tasks that have ended since messages were last dropped. -/
structure Reported (p : Pool σ) (l : Ledger σ) (reported : List Nat) : Prop where
  tasks : reported.map (l.taken[·]?) = l.endedSinceClear.map some
  errors : p.errors = messagesOf l.endedSinceClear

theorem Reported.exists_task {reported : List Nat} {ticket : Nat} (hr : Reported p l reported)
    (hmem : ticket ∈ reported) : ∃ task ∈ l.endedSinceClear, l.taken[ticket]? = some task := by
  have htask : l.taken[ticket]? ∈ l.endedSinceClear.map some :=
    hr.tasks ▸ List.mem_map_of_mem hmem
  obtain ⟨task, hended, htaken⟩ := List.mem_map.1 htask
  exact ⟨task, hended, htaken.symm⟩

theorem Reported.step {reported : List Nat} {event : Event σ} (hl : Accounts p l)
    (hr : Reported p l reported) (hstep : p.step event = some q) :
    Reported q (l.record event p) (l.reportedAfter event reported) := by
  cases event with
  | submit task =>
    obtain ⟨-, rfl⟩ := step_submit.1 hstep
    exact ⟨hr.tasks, hr.errors⟩
  | take w =>
    obtain ⟨task, queue, -, hqueue, rfl⟩ := step_take.1 hstep
    have htaken : (l.record (.take w) p).taken = l.taken ++ [task] := by
      simp [Ledger.record, History.record, hqueue]
    refine ⟨?_, hr.errors⟩
    rw [htaken]
    refine Eq.trans (List.map_congr_left (fun ticket hmem => ?_)) hr.tasks
    obtain ⟨task', -, htask'⟩ := hr.exists_task hmem
    exact List.getElem?_append_left (List.getElem?_eq_some_iff.1 htask').1
  | act w =>
    obtain ⟨task, action, rest, shared, -, -, rfl⟩ := step_act.1 hstep
    exact ⟨hr.tasks, hr.errors⟩
  | finish w =>
    obtain ⟨task, hbusy, rfl⟩ := step_finish.1 hstep
    obtain ⟨before, after, ticket, before', after', hworkers, hheld, rfl, hlen, -, hholds, -⟩ :=
      Places.forall₂_split hl.crew hbusy
    cases hholds with
    | @busy _ _ ticket htask hrest =>
      have hsame : (l.record (.finish before.length) p).taken = l.taken := by
        simp [Ledger.record, History.record, hbusy]
      have hended : (l.record (.finish before.length) p).endedSinceClear =
          l.endedSinceClear ++ [task] := by
        simp [Ledger.record, History.record, hbusy]
      have hreported : l.reportedAfter (.finish before.length) reported = reported ++ [ticket] := by
        simp [Ledger.reportedAfter, hheld, ← hlen]
      refine ⟨?_, ?_⟩
      · rw [hsame, hended, hreported, List.map_append, List.map_append, hr.tasks]
        simp [htask]
      · rw [hended, conclude, hr.errors, messagesOf, messagesOf, List.filterMap_append]
        cases htrouble : task.trouble <;> simp [htrouble]
  | leave w =>
    obtain ⟨-, -, -, rfl⟩ := step_leave.1 hstep
    exact ⟨hr.tasks, hr.errors⟩
  | clearErrors =>
    obtain rfl := step_clearErrors.1 hstep
    exact ⟨rfl, rfl⟩
  | halt =>
    obtain ⟨-, rfl⟩ := step_halt.1 hstep
    exact ⟨hr.tasks, hr.errors⟩
  | start =>
    obtain ⟨-, rfl⟩ := step_start.1 hstep
    exact ⟨hr.tasks, hr.errors⟩
  | resize size =>
    obtain ⟨-, rfl⟩ := step_resize.1 hstep
    exact ⟨hr.tasks, hr.errors⟩

theorem Reported.message_mem {reported : List Nat} {ticket : Nat} {task : Task σ}
    {trouble : Trouble} (hr : Reported p l reported) (hmem : ticket ∈ reported)
    (htask : l.taken[ticket]? = some task) (htrouble : task.trouble = some trouble) :
    trouble.message ∈ p.errors := by
  obtain ⟨task', hended, htask'⟩ := hr.exists_task hmem
  obtain rfl : task' = task := Option.some.inj (htask'.symm.trans htask)
  rw [hr.errors, messagesOf]
  exact List.mem_filterMap.2 ⟨task', hended, by rw [htrouble]; rfl⟩

theorem Ledger.accepted_record {event : Event σ} (h : ∀ task, event ≠ .submit task) :
    (l.record event p).accepted = l.accepted := by
  cases event with
  | submit task => exact absurd rfl (h task)
  | finish w =>
    simp only [record, History.record]
    split <;> rfl
  | _ => rfl

theorem Ledger.accepted_prefix_record (event : Event σ) :
    l.accepted <+: (l.record event p).accepted := by
  by_cases h : ∃ task, event = .submit task
  · obtain ⟨task, rfl⟩ := h
    exact List.prefix_append _ _
  · have hsame := accepted_record (p := p) (l := l) (fun task htask => h ⟨task, htask⟩)
    exact ⟨[], by rw [List.append_nil, hsame]⟩

/-- Where no worker is busy and the queue is empty, every ticket has come back. -/
theorem Accounts.mem_returned (hl : Accounts p l) (hqueue : p.queue = [])
    (hidle : ∀ worker ∈ p.workers, worker = .idle) {ticket : Nat} {task : Task σ}
    (htask : l.accepted[ticket]? = some task) :
    l.taken[ticket]? = some task ∧ ticket ∈ l.returned := by
  have htaken : l.accepted = l.taken := by rw [hl.fifo, hqueue, List.append_nil]
  rw [htaken] at htask
  have hheld : l.held.filterMap id = [] := by
    rw [List.filterMap_eq_nil_iff]
    intro held hmem
    obtain ⟨w, hw⟩ := List.mem_iff_getElem?.1 hmem
    obtain ⟨before, after, worker, before', after', -, hworkers, -, -, -, hholds, -⟩ :=
      Places.forall₂_split hl.crew.flip hw
    obtain rfl := hidle worker (by simp [hworkers])
    cases hholds
    rfl
  have hreturned : l.returned.Perm (List.range l.taken.length) := by
    have honce := hl.once
    rwa [hheld, List.append_nil] at honce
  exact ⟨htask, hreturned.mem_iff.2 (List.mem_range.2 (List.getElem?_eq_some_iff.1 htask).1)⟩

end Pool

/-! ## Logs -/

structure Call (σ : Type) where
  task : Pool.Task σ
  /-- The ticket of the task, once it is queued. -/
  ticket : Option Nat

namespace Monitor

structure Log (σ : Type) extends Pool.Ledger σ where
  /-- One for each submitter, in the same order. -/
  calls : List (Call σ)
  /-- The tickets of the tasks that have ended since the messages were last dropped. -/
  reported : List Nat

namespace Log

def fresh (pool : Pool σ) : Log σ := ⟨Pool.Ledger.empty.record .start pool, [], []⟩

/-- The calls after a move. A task is given the number of tasks accepted before it. -/
def callsAfter (move : Move σ) (m : Monitor σ) (l : Log σ) : List (Call σ) :=
  match move with
  | .call task => l.calls ++ [⟨task, none⟩]
  | .submitter i =>
    match move.event m with
    | some (.submit task) => l.calls.set i ⟨task, some l.accepted.length⟩
    | _ => l.calls
  | _ => l.calls

def record (move : Move σ) (m : Monitor σ) (l : Log σ) : Log σ :=
  match move.event m with
  | some event =>
    ⟨l.toLedger.record event m.pool, l.callsAfter move m, l.reportedAfter event l.reported⟩
  | none => { l with calls := l.callsAfter move m }

end Log

/-- The monitor and its log after a list of moves, if they can be made in this order. -/
def keep : List (Move σ) → Monitor σ → Log σ → Option (Monitor σ × Log σ)
  | [], m, l => some (m, l)
  | move :: moves, m, l =>
    match m.step move with
    | some next => keep moves next (l.record move m)
    | none => none

inductive Booked (accepted : List (Pool.Task σ)) : Submitter σ → Call σ → Prop
  | checking {task : Pool.Task σ} : Booked accepted (.checking task) ⟨task, none⟩
  | asleep {task : Pool.Task σ} : Booked accepted (.asleep task) ⟨task, none⟩
  | signalling {task : Pool.Task σ} {ticket : Nat} (htask : accepted[ticket]? = some task) :
      Booked accepted .signalling ⟨task, some ticket⟩
  | refused {task : Pool.Task σ} : Booked accepted (.returned false) ⟨task, none⟩
  | accepted {task : Pool.Task σ} {ticket : Nat} (htask : accepted[ticket]? = some task) :
      Booked accepted (.returned true) ⟨task, some ticket⟩

/-- The log agrees with the monitor. -/
structure Books (m : Monitor σ) (l : Log σ) : Prop where
  accounts : Pool.Accounts m.pool l.toLedger
  reported : Pool.Reported m.pool l.toLedger l.reported
  calls : List.Forall₂ (Booked l.accepted) m.submitters l.calls
  once : (l.calls.filterMap Call.ticket).Perm (List.range l.accepted.length)

variable {m n : Monitor σ} {move : Move σ} {l l' : Log σ}

/-! ## Logs along a run -/

theorem Booked.more {accepted : List (Pool.Task σ)} {s : Submitter σ} {call : Call σ}
    (h : Booked accepted s call) (task : Pool.Task σ) : Booked (accepted ++ [task]) s call := by
  have hkept {ticket : Nat} {task' : Pool.Task σ} (htask : accepted[ticket]? = some task') :
      (accepted ++ [task])[ticket]? = some task' := by
    rwa [List.getElem?_append_left (List.getElem?_eq_some_iff.1 htask).1]
  cases h with
  | checking => exact .checking
  | asleep => exact .asleep
  | signalling htask => exact .signalling (hkept htask)
  | refused => exact .refused
  | accepted htask => exact .accepted (hkept htask)

theorem Booked.wake {accepted : List (Pool.Task σ)} {s : Submitter σ} {call : Call σ}
    (h : Booked accepted s call) : Booked accepted s.wake call := by
  cases h with
  | asleep => exact .checking
  | checking => exact .checking
  | signalling htask => exact .signalling htask
  | refused => exact .refused
  | accepted htask => exact .accepted htask

theorem event_ne_submit (hmove : ∀ i, move ≠ .submitter i) (task : Pool.Task σ) :
    move.event m ≠ some (.submit task) := by
  cases move with
  | submitter i => exact absurd rfl (hmove i)
  | worker w =>
    simp only [Move.event]
    split
    · simp
    · split <;> simp
  | _ => simp [Move.event]

theorem Log.calls_record (move : Move σ) (m : Monitor σ) (l : Log σ) :
    (l.record move m).calls = l.callsAfter move m := by
  rw [record]
  split <;> rfl

theorem Log.accepted_record (h : ∀ task, move.event m ≠ some (.submit task)) :
    (l.record move m).accepted = l.accepted := by
  rw [record]
  split
  · rename_i event hevent
    exact Pool.Ledger.accepted_record (fun task htask => h task (hevent.trans (congrArg some htask)))
  · rfl

theorem Books.pool_step (hm : Books m l) (h : Change m move n) :
    Pool.Accounts n.pool (l.record move m).toLedger ∧
      Pool.Reported n.pool (l.record move m).toLedger (l.record move m).reported := by
  rcases h.pool with ⟨event, hevent, hstep⟩ | ⟨hevent, hsame⟩
  · simp only [Log.record, hevent]
    exact ⟨hm.accounts.step hstep, hm.reported.step hm.accounts hstep⟩
  · simp only [Log.record, hevent, hsame]
    exact ⟨hm.accounts, hm.reported⟩

theorem Books.kept (hm : Books m l) (h : Change m move n)
    (hevent : ∀ task, move.event m ≠ some (.submit task)) (hsame : l.callsAfter move m = l.calls)
    (hcalls : List.Forall₂ (Booked l.accepted) n.submitters l.calls) :
    Books n (l.record move m) := by
  obtain ⟨haccounts, hreported⟩ := hm.pool_step h
  refine ⟨haccounts, hreported, ?_, ?_⟩
  · rw [Log.accepted_record hevent, Log.calls_record, hsame]
    exact hcalls
  · rw [Log.accepted_record hevent, Log.calls_record, hsame]
    exact hm.once

theorem Books.queued {before after : List (Submitter σ)} {task : Pool.Task σ} {pool : Pool σ}
    (hm : Books m l) (hsubmitters : m.submitters = before ++ .checking task :: after)
    (hpool : m.pool.step (.submit task) = some pool) :
    Books { m with pool, submitters := before ++ .signalling :: after }
      (l.record (.submitter before.length) m) := by
  obtain ⟨haccounts, hreported⟩ := hm.pool_step (.queued hsubmitters hpool)
  have hevent := event_submitter_of_some hsubmitters hpool
  have hcut := hm.calls
  rw [hsubmitters] at hcut
  obtain ⟨before', call, after', hcalls, hlen, hbefore, hcall, hafter⟩ := Places.forall₂_cut hcut
  cases hcall
  -- The new ticket is the number of tasks accepted so far, which no other call has.
  have haccepted : (l.record (.submitter before.length) m).accepted = l.accepted ++ [task] := by
    simp only [Log.record, hevent]
    rfl
  have hset : (l.record (.submitter before.length) m).calls =
      before' ++ ⟨task, some l.accepted.length⟩ :: after' := by
    rw [Log.calls_record]
    simp only [Log.callsAfter, hevent]
    rw [hcalls, ← hlen, Places.set_split]
  refine ⟨haccounts, hreported, ?_, ?_⟩
  · rw [haccepted, hset]
    exact List.rel_append (hbefore.imp (fun _ _ h => h.more task))
      (.cons (.signalling (by simp)) (hafter.imp (fun _ _ h => h.more task)))
  · have honce := hm.once
    rw [hcalls, List.filterMap_append, List.filterMap_cons_none rfl] at honce
    have hticket : Call.ticket ⟨task, some l.accepted.length⟩ = some l.accepted.length := rfl
    rw [haccepted, hset, List.length_append, List.length_singleton, List.range_succ,
      List.filterMap_append, List.filterMap_cons_some hticket]
    exact List.perm_middle.trans ((honce.cons _).trans (List.perm_append_singleton _ _).symm)

theorem Books.called {task : Pool.Task σ} (hm : Books m l) (habsent : m.closer = .absent) :
    Books { m with submitters := m.submitters ++ [.checking task] } (l.record (.call task) m) := by
  obtain ⟨haccounts, hreported⟩ := hm.pool_step (.called habsent)
  refine ⟨haccounts, hreported, List.rel_append hm.calls (.cons .checking .nil), ?_⟩
  change (List.filterMap Call.ticket (l.calls ++ [⟨task, none⟩])).Perm _
  rw [List.filterMap_append, List.filterMap_cons_none rfl, List.filterMap_nil, List.append_nil]
  exact hm.once

theorem Books.step (hm : Books m l) (h : m.step move = some n) : Books n (l.record move m) := by
  have hcalls := hm.calls
  have hkept := hm.kept (change_of_step h)
  cases change_of_step h with
  | called habsent => exact hm.called habsent
  | queued hsubmitters hpool => exact hm.queued hsubmitters hpool
  | @refused before after task hsubmitters hstopped =>
    have hevent := event_submitter_of_none hsubmitters (fun hroom => by simp [hstopped] at hroom)
    rw [hsubmitters] at hcalls
    refine hkept (fun task htask => ?_) (by simp only [Log.callsAfter, hevent])
      (Places.forall₂_keep hcalls (fun call hcall => by cases hcall; exact .refused))
    rw [hevent] at htask
    cases htask
  | lacksRoom hsubmitters hrunning hfull =>
    have hevent := event_submitter_of_none hsubmitters (fun hroom => Nat.not_lt.2 hfull hroom.2)
    rw [hsubmitters] at hcalls
    refine hkept (fun task htask => ?_) (by simp only [Log.callsAfter, hevent])
      (Places.forall₂_keep hcalls (fun call hcall => by cases hcall; exact .asleep))
    rw [hevent] at htask
    cases htask
  | signalledWork hsubmitters hwake =>
    rw [hsubmitters] at hcalls
    exact hkept (event_ne_submit (by simp)) rfl
      (Places.forall₂_keep hcalls (fun call hcall => by
        cases hcall with
        | signalling htask => exact .accepted htask))
  | signalledRoom hhands hwake =>
    refine hkept (event_ne_submit (by simp)) rfl ?_
    rcases wakeOne_cases hwake with ⟨-, rfl⟩ | ⟨before, s, after, hsubmitters, -, rfl⟩
    · exact hcalls
    · rw [hsubmitters] at hcalls
      exact Places.forall₂_keep hcalls (fun call hcall => hcall.wake)
  | wokeSubmitters =>
    refine hkept (event_ne_submit (by simp)) rfl ?_
    rw [List.forall₂_map_left_iff]
    exact hcalls.imp (fun _ _ hcall => hcall.wake)
  | submitterStrays hsubmitters =>
    rw [hsubmitters] at hcalls
    exact hkept (event_ne_submit (by simp)) rfl
      (Places.forall₂_keep hcalls (fun call hcall => by cases hcall; exact .checking))
  | _ => exact hkept (event_ne_submit (by simp)) rfl hcalls

theorem keep_induction {motive : Monitor σ → Log σ → Prop} {moves : List (Move σ)}
    (hstep : ∀ {move m n} {l : Log σ}, motive m l → m.step move = some n → motive n (l.record move m))
    (hstart : motive m l) (hkeep : keep moves m l = some (n, l')) : motive n l' := by
  induction moves generalizing m l with
  | nil =>
    simp only [keep, Option.some.injEq, Prod.mk.injEq] at hkeep
    obtain ⟨rfl, rfl⟩ := hkeep
    exact hstart
  | cons move moves ih =>
    rw [keep] at hkeep
    split at hkeep
    · rename_i next hnext
      exact ih (hstep hstart hnext) hkeep
    · cases hkeep

theorem exists_log {moves : List (Move σ)} (l : Log σ) (hrun : run moves m = some n) :
    ∃ l', keep moves m l = some (n, l') := by
  induction moves generalizing m l with
  | nil =>
    simp only [run, Option.some.injEq] at hrun
    exact ⟨l, by rw [keep, hrun]⟩
  | cons move moves ih =>
    obtain ⟨next, hnext, hrest⟩ := Option.bind_eq_some_iff.1 hrun
    obtain ⟨l', hkeep⟩ := ih (l.record move m) hrest
    exact ⟨l', by simp only [keep, hnext, hkeep]⟩

theorem accepted_prefix {moves : List (Move σ)} (hkeep : keep moves m l = some (n, l')) :
    l.accepted <+: l'.accepted := by
  refine keep_induction (motive := fun _ k => l.accepted <+: k.accepted) ?_ (List.prefix_refl _) hkeep
  intro move m n k hprefix _
  refine hprefix.trans ?_
  rw [Log.record]
  split
  · exact Pool.Ledger.accepted_prefix_record _
  · exact List.prefix_refl _

theorem books_create (size capacity : Nat) (shared : σ) :
    Books (ofPool (Pool.create size capacity shared))
      (.fresh (Pool.create size capacity shared)) where
  accounts := (Pool.accounts_stopped size capacity shared).step
    (show (Pool.stopped size capacity shared).step .start = some _ from rfl)
  reported := ⟨rfl, rfl⟩
  calls := .nil
  once := List.Perm.refl _

/-- A waiter returns only from an idle pool, and leaves it as it is. -/
theorem isIdle_of_returned {i : Nat} (h : m.step (.waiter i) = some n)
    (hreturned : n.waiters[i]? = some .returned) : n.pool = m.pool ∧ m.pool.isIdle = true := by
  generalize hmove : Move.waiter i = move at h
  cases change_of_step h with
  | looked hwaiters =>
    cases hmove
    rw [Places.getElem?_split, Option.some.injEq] at hreturned
    refine ⟨rfl, ?_⟩
    by_contra hbusy
    rw [if_neg hbusy] at hreturned
    cases hreturned
  | _ => cases hmove

/-- When a caller that waits for the pool to be idle returns, the queue is empty and no task is being
done. Every task whose submitter had returned before that caller came has ended; if it failed, its
message is there unless messages were dropped after it had ended. This holds whatever other threads
do in between. -/
theorem await_idle_barrier {size capacity : Nat} {shared : σ} {before later : List (Move σ)}
    {m n k : Monitor σ}
    (hbefore : run before (ofPool (Pool.create size capacity shared)) = some m)
    (hlater : run (.await :: later) m = some n)
    (hreturn : n.step (.waiter m.waiters.length) = some k)
    (hreturned : k.waiters[m.waiters.length]? = some .returned) :
    (k.pool = n.pool ∧ n.pool.queue = [] ∧ n.pool.executing = []) ∧
      ∃ l l' : Log σ,
        keep before (ofPool (Pool.create size capacity shared))
          (.fresh (Pool.create size capacity shared)) = some (m, l) ∧
        keep (.await :: later) m l = some (n, l') ∧
        (l'.calls.filterMap Call.ticket).Perm (List.range l'.accepted.length) ∧
        ∀ i : Nat, m.submitters[i]? = some (.returned true) →
          ∃ task ticket, l.calls[i]? = some ⟨task, some ticket⟩ ∧
            l'.accepted[ticket]? = some task ∧ ticket ∈ l'.returned ∧
            ∀ trouble, task.trouble = some trouble → ticket ∈ l'.reported →
              trouble.message ∈ k.pool.errors := by
  obtain ⟨l, hkeep⟩ := exists_log (.fresh (Pool.create size capacity shared)) hbefore
  obtain ⟨l', hkeep'⟩ := exists_log l hlater
  have hbooks : Books m l := keep_induction Books.step (books_create size capacity shared) hkeep
  have hbooks' : Books n l' := keep_induction Books.step hbooks hkeep'
  obtain ⟨more, hmore⟩ := accepted_prefix hkeep'
  have hsound : n.pool.Sound :=
    sound_of_run (sound_of_run (Pool.sound_create size capacity shared) hbefore) hlater
  obtain ⟨hsame, hidle⟩ := isIdle_of_returned hreturn hreturned
  obtain ⟨hqueue, hworkers⟩ := hsound.isIdle_iff.1 hidle
  refine ⟨⟨hsame, hqueue, ?_⟩, l, l', hkeep, hkeep', hbooks'.once, fun i hi => ?_⟩
  · rw [← List.length_eq_zero_iff, ← hsound.outstanding]
    exact hsound.outstanding_eq_zero_iff.2 hworkers
  · obtain ⟨-, -, call, left, right, -, hcalls, -, hlen, -, hcall, -⟩ :=
      Places.forall₂_split hbooks.calls hi
    cases hcall with
    | @accepted task ticket htask =>
      -- The ticket was given out before the waiter came, and now all tickets have come back.
      have hstill : l'.accepted[ticket]? = some task := by
        rwa [← hmore, List.getElem?_append_left (List.getElem?_eq_some_iff.1 htask).1]
      obtain ⟨htaken, hmem⟩ := hbooks'.accounts.mem_returned hqueue hworkers hstill
      refine ⟨task, ticket, ?_, hstill, hmem, fun trouble htrouble hreported => ?_⟩
      · rw [hcalls, ← hlen, Places.getElem?_split]
      · rw [hsame]
        exact hbooks'.reported.message_mem hreported htaken htrouble

/-- Two workers and a queue of one place. A task that fails was submitted before the waiter came, and
another one is submitted and taken while it waits. -/
theorem await_idle_barrier_with_latecomer :
    let failing : Pool.Task Unit := ⟨[], some (.failed "page missing" [])⟩
    let before : List (Move Unit) := [.call failing, .submitter 0, .signalWork 0 none,
      .call ⟨[], none⟩]
    let later : List (Move Unit) := [.waiter 0, .worker 0, .submitter 1, .signalRoom 0 none,
      .worker 1, .finish 0, .signalWork 1 none, .signalRoom 1 none, .finish 1, .announce 1]
    ∃ m n k, run before (ofPool (Pool.create 2 1 ())) = some m ∧
      run (.await :: later) m = some n ∧ n.step (.waiter m.waiters.length) = some k ∧
      k.waiters[m.waiters.length]? = some .returned ∧ n.pool.queue = [] ∧ n.pool.executing = [] ∧
      ∃ l l' : Log Unit, keep before (ofPool (Pool.create 2 1 ())) (.fresh (Pool.create 2 1 ())) =
          some (m, l) ∧ keep (.await :: later) m l = some (n, l') ∧
        l.calls[0]? = some ⟨failing, some 0⟩ ∧ 0 ∈ l'.returned ∧
        "page missing" ∈ k.pool.errors := by
  intro failing before later
  obtain ⟨m, hbefore, n, hlater, k, hreturn, hreturned, hsubmitted⟩ :
      ∃ m, run before (ofPool (Pool.create 2 1 ())) = some m ∧
        ∃ n, run (.await :: later) m = some n ∧
          ∃ k, n.step (.waiter m.waiters.length) = some k ∧
            k.waiters[m.waiters.length]? = some .returned ∧
            m.submitters[0]? = some (.returned true) := by
    -- Evaluation is slow under local names.
    simp only [failing, before, later]
    exact ⟨_, rfl, _, rfl, _, rfl, rfl, rfl⟩
  obtain ⟨⟨-, hqueue, hexecuting⟩, l, l', hkeep, hkeep', -, hended⟩ :=
    await_idle_barrier hbefore hlater hreturn hreturned
  have hview : (keep before (ofPool (Pool.create 2 1 ())) (.fresh (Pool.create 2 1 ()))).bind
      (fun s => (keep (.await :: later) s.1 s.2).map fun s' => (s.2.calls[0]?, s'.2.reported)) =
      some (some ⟨failing, some 0⟩, [0, 1]) := by
    simp only [failing, before, later]
    rfl
  rw [hkeep, Option.bind_some, hkeep', Option.map_some, Option.some.injEq, Prod.mk.injEq] at hview
  obtain ⟨hcall, hreported⟩ : l.calls[0]? = some ⟨failing, some 0⟩ ∧ l'.reported = [0, 1] := hview
  obtain ⟨task, ticket, hcall', -, hreturned', hmessage⟩ := hended 0 hsubmitted
  rw [hcall, Option.some.injEq, Call.mk.injEq, Option.some.injEq] at hcall'
  obtain ⟨rfl, rfl⟩ := hcall'
  exact ⟨m, n, k, hbefore, hlater, hreturn, hreturned, hqueue, hexecuting, l, l', hkeep, hkeep', hcall,
    hreturned', hmessage _ rfl (by simp [hreported])⟩

end Monitor

end PointTiles
