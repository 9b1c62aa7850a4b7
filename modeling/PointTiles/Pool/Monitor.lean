import PointTiles.Pool

/-! # The pool as a monitor

How the callers and the workers of a pool wait for each other. All share one lock and three wait
sets: submitters wait for room in the queue, workers for a task, and waiters for an idle pool. What
a thread does under the lock is one move, and each signal after it is a move of its own, so that
other threads may come in between.

* `Submitter`, `Waiter`, `Hand`, `Closer`: where a caller of submit, a caller that waits for the
  pool to be idle, a worker, and the caller that stops the pool stand.
* `Monitor.Move`: the moves. Waking without a signal is a move as well.
* `Monitor.step`: the monitor after a move, if the move can be made.

A move under the lock is an event of `Pool.step`, or none where the thread goes to sleep, so a run
of the monitor is a run of the pool.
-/

namespace PointTiles
set_option autoImplicit false

/-! ## Threads -/

inductive Submitter (σ : Type) where
  /-- It is about to look at the queue. -/
  | checking (task : Pool.Task σ)
  /-- It waits for room. -/
  | asleep (task : Pool.Task σ)
  /-- Its task is queued, and a worker is to be woken. -/
  | signalling
  | returned (accepted : Bool)

/-- A caller that waits for the pool to be idle. -/
inductive Waiter where
  | checking
  | asleep
  | returned
  deriving DecidableEq, Repr

/-- Where a worker stands in its round. -/
inductive Hand where
  /-- It is about to look at the queue. -/
  | checking
  /-- It waits for a task. -/
  | asleep
  /-- It has taken a task, and a submitter is to be woken. -/
  | signalling
  | working
  /-- It has left the pool idle, and the waiters are to be woken. -/
  | announcing
  deriving DecidableEq, Repr

/-- The caller that stops the pool. -/
inductive Closer where
  | absent
  /-- The pool is halted, and the workers are to be woken. -/
  | wakingWorkers
  /-- The submitters are to be woken. -/
  | wakingSubmitters
  /-- It waits until all workers have left. -/
  | joining
  deriving DecidableEq, Repr

structure Monitor (σ : Type) where
  pool : Pool σ
  /-- One for each worker of the pool, in the same order. -/
  hands : List Hand
  submitters : List (Submitter σ)
  waiters : List Waiter
  closer : Closer

namespace Submitter

variable {σ : Type}

def isAsleep : Submitter σ → Bool
  | asleep _ => true
  | _ => false

/-- Out of the wait set. -/
def wake : Submitter σ → Submitter σ
  | asleep task => checking task
  | s => s

def hasReturned : Submitter σ → Bool
  | returned _ => true
  | _ => false

end Submitter

/-- Out of the wait set. -/
def Waiter.wake : Waiter → Waiter
  | asleep => checking
  | w => w

/-- Out of the wait set. -/
def Hand.wake : Hand → Hand
  | asleep => checking
  | h => h

namespace Monitor

variable {σ : Type}

/-- A pool that has just been started, with no caller. -/
def ofPool (pool : Pool σ) : Monitor σ :=
  ⟨pool, List.replicate pool.workers.length .checking, [], [], .absent⟩

/-! ## Moves -/

/-- What a thread can do. Threads are named by their places. -/
inductive Move (σ : Type) where
  | call (task : Pool.Task σ)
  | await
  | clearErrors
  | halt
  | start
  | resize (size : Nat)
  | submitter (i : Nat)
  /-- A submitter wakes a worker if one is asleep. -/
  | signalWork (i : Nat) (woken : Option Nat)
  | worker (w : Nat)
  /-- A worker wakes a submitter if one is asleep. -/
  | signalRoom (w : Nat) (woken : Option Nat)
  | act (w : Nat)
  | finish (w : Nat)
  | announce (w : Nat)
  | waiter (i : Nat)
  | closer
  | strayWakeSubmitter (i : Nat)
  | strayWakeWorker (w : Nat)
  | strayWakeWaiter (i : Nat)

namespace Move

/-- The moves that only the owner of the pool makes. -/
def isOwners : Move σ → Bool
  | halt | start | resize _ => true
  | _ => false

/-- The calls of others. -/
def isCall : Move σ → Bool
  | call _ | await | clearErrors => true
  | _ => false

end Move

/-- Wakes the named one of those asleep; none may be named only where none is asleep. -/
def wakeOne {β : Type} (isAsleep : β → Bool) (wake : β → β) (woken : Option Nat)
    (threads : List β) : Option (List β) :=
  match woken with
  | none => if threads.any isAsleep then none else some threads
  | some i =>
    match threads[i]? with
    | some t => if isAsleep t then some (threads.set i (wake t)) else none
    | none => none

/-- A submitter looks at the queue: it is refused, goes to sleep, or leaves its task. -/
def checkSubmitter (i : Nat) (task : Pool.Task σ) (m : Monitor σ) : Monitor σ :=
  if !m.pool.running then { m with submitters := m.submitters.set i (.returned false) }
  else
    match m.pool.step (.submit task) with
    | some pool => { m with pool, submitters := m.submitters.set i .signalling }
    | none => { m with submitters := m.submitters.set i (.asleep task) }

/-- A worker looks at the queue: it takes a task, goes to sleep, or leaves. -/
def checkWorker (w : Nat) (m : Monitor σ) : Option (Monitor σ) :=
  match m.pool.step (.take w) with
  | some pool => some { m with pool, hands := m.hands.set w .signalling }
  | none =>
    if m.pool.running then some { m with hands := m.hands.set w .asleep }
    else (m.pool.step (.leave w)).map fun pool => { m with pool, hands := m.hands.eraseIdx w }

/-- No call is under way. -/
def quiet (m : Monitor σ) : Bool :=
  m.closer = .absent && m.submitters.all Submitter.hasReturned && m.waiters.all (· = .returned)

/-- The monitor after a move, if the move can be made. A pool is stopped, started or given another
size only when no other call is under way. -/
def step (move : Move σ) (m : Monitor σ) : Option (Monitor σ) :=
  match move with
  | .call task =>
    if m.closer = .absent then some { m with submitters := m.submitters ++ [.checking task] }
    else none
  | .await =>
    if m.closer = .absent then some { m with waiters := m.waiters ++ [.checking] } else none
  | .clearErrors =>
    if m.closer = .absent then (m.pool.step .clearErrors).map fun pool => { m with pool } else none
  | .halt =>
    if m.quiet then (m.pool.step .halt).map fun pool => { m with pool, closer := .wakingWorkers }
    else none
  | .start =>
    if m.quiet then
      (m.pool.step .start).map fun pool =>
        { m with pool, hands := List.replicate pool.workers.length .checking }
    else none
  | .resize size =>
    if m.quiet then (m.pool.step (.resize size)).map fun pool => { m with pool } else none
  | .submitter i =>
    match m.submitters[i]? with
    | some (.checking task) => some (m.checkSubmitter i task)
    | _ => none
  | .signalWork i woken =>
    match m.submitters[i]? with
    | some .signalling =>
      (wakeOne (· = .asleep) Hand.wake woken m.hands).map fun hands =>
        { m with hands, submitters := m.submitters.set i (.returned true) }
    | _ => none
  | .worker w =>
    match m.hands[w]? with
    | some .checking => m.checkWorker w
    | _ => none
  | .signalRoom w woken =>
    match m.hands[w]? with
    | some .signalling =>
      (wakeOne Submitter.isAsleep Submitter.wake woken m.submitters).map fun submitters =>
        { m with submitters, hands := m.hands.set w .working }
    | _ => none
  | .act w =>
    match m.hands[w]? with
    | some .working => (m.pool.step (.act w)).map fun pool => { m with pool }
    | _ => none
  | .finish w =>
    match m.hands[w]? with
    | some .working =>
      (m.pool.step (.finish w)).map fun pool =>
        { m with pool, hands := m.hands.set w (if pool.isIdle then .announcing else .checking) }
    | _ => none
  | .announce w =>
    match m.hands[w]? with
    | some .announcing =>
      some { m with waiters := m.waiters.map Waiter.wake, hands := m.hands.set w .checking }
    | _ => none
  | .waiter i =>
    match m.waiters[i]? with
    | some .checking =>
      some { m with
        waiters := m.waiters.set i (if m.pool.isIdle then .returned else .asleep) }
    | _ => none
  | .closer =>
    match m.closer with
    | .absent => none
    | .wakingWorkers => some { m with hands := m.hands.map Hand.wake, closer := .wakingSubmitters }
    | .wakingSubmitters =>
      some { m with submitters := m.submitters.map Submitter.wake, closer := .joining }
    | .joining => if m.pool.workers.isEmpty then some { m with closer := .absent } else none
  | .strayWakeSubmitter i =>
    match m.submitters[i]? with
    | some (.asleep task) => some { m with submitters := m.submitters.set i (.checking task) }
    | _ => none
  | .strayWakeWorker w =>
    match m.hands[w]? with
    | some .asleep => some { m with hands := m.hands.set w .checking }
    | _ => none
  | .strayWakeWaiter i =>
    match m.waiters[i]? with
    | some .asleep => some { m with waiters := m.waiters.set i .checking }
    | _ => none

/-- The monitor after a list of moves, if they can be made in this order. -/
def run : List (Move σ) → Monitor σ → Option (Monitor σ)
  | [], m => some m
  | move :: moves, m => (m.step move).bind (run moves)

end Monitor

end PointTiles
