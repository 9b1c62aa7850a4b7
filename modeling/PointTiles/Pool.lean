import PointTiles.Fault

/-! # A bounded pool of workers

A pool runs tasks on a fixed number of workers. Tasks wait in one queue of limited length, first in,
first out. The pool is a transition system: `Pool.step` says what one event does, and every schedule
of the workers is a list of events.

* `Pool.Task`: what a task does to the state that all tasks share, and how it ends.
* `Pool.Worker`: idle, or busy with the rest of a task.
* `Pool.Event`: a submission, a move of one worker, or a call on the pool by its owner.
* `Pool.step`: the pool after an event, if the event can happen.
* `Pool.settle`: lets the workers go on, one after the other, until none can move.
* `Pool.submit?`, `start`, `stop`, `cycle`, `resize`: the calls of the owner, on the settled pool.

A task's failure is kept as a message and stops nothing. A stopped pool takes no task, and its
workers leave once the queue is empty.
-/

namespace PointTiles
set_option autoImplicit false

-- Sums of numbers begin at the zero of the core library, whatever else is imported.
attribute [local instance (high)] Zero.ofOfNat0

/-! ## Tasks -/

inductive Trouble where
  /-- It reports an error, and what the error comes from, the first cause last. -/
  | failed (error : String) (origins : List String)
  /-- It breaks off, with a text or without one. -/
  | brokeOff (text : Option String)
  deriving DecidableEq, Repr

namespace Trouble

/-- The message that a pool keeps. -/
def message : Trouble → String
  | failed error origins => ": ".intercalate (error :: origins)
  | brokeOff (some text) => text
  | brokeOff none => "Unknown error"

/-- Trouble met while doing something named. A task that breaks off does not say what it did. -/
def during (context : String) : Trouble → Trouble
  | failed error origins => failed context (error :: origins)
  | brokeOff text => brokeOff text

/-- A task that meets a fault reports it. -/
def ofFault (fault : Fault) : Trouble := failed fault.message fault.origins

end Trouble

namespace Pool

/-- A task over a shared state. An action that answers `none` cannot be done yet; the task waits. -/
structure Task (σ : Type) where
  actions : List (σ → Option σ)
  trouble : Option Trouble

inductive Worker (σ : Type) where
  | idle
  /-- Busy with a task of which these actions are left. -/
  | busy (task : Task σ) (rest : List (σ → Option σ))

end Pool

/-! ## Pools -/

structure Pool (σ : Type) where
  running : Bool
  /-- Tasks that no worker has taken, the oldest first. -/
  queue : List (Pool.Task σ)
  /-- How many tasks are taken and not finished. -/
  outstanding : Nat
  /-- Messages of failed tasks in the order in which they ended. -/
  errors : List String
  /-- The workers that live. -/
  workers : List (Pool.Worker σ)
  /-- How many workers a start brings to life. -/
  size : Nat
  capacity : Nat
  shared : σ

namespace Pool

variable {σ : Type}

/-- What can happen to a pool. Workers are named by their place among those that live. -/
inductive Event (σ : Type) where
  | submit (task : Task σ)
  /-- An idle worker takes the oldest task. -/
  | take (worker : Nat)
  /-- A busy worker does the next action of its task. -/
  | act (worker : Nat)
  /-- A busy worker with no action left ends its task. -/
  | finish (worker : Nat)
  /-- An idle worker of a stopped pool leaves when the queue is empty. -/
  | leave (worker : Nat)
  | clearErrors
  | halt
  /-- A stopped pool without workers is started. -/
  | start
  /-- A stopped pool without workers is given another size. -/
  | resize (size : Nat)

/-- The pool of a given size and capacity before it is started. Both are at least one. -/
def stopped (size capacity : Nat) (shared : σ) : Pool σ where
  running := false
  queue := []
  outstanding := 0
  errors := []
  workers := []
  size := max size 1
  capacity := max capacity 1
  shared := shared

/-! ## Events -/

/-- A task enters the queue of a running pool that has room. -/
def enqueue (task : Task σ) (p : Pool σ) : Option (Pool σ) :=
  if p.running ∧ p.queue.length < p.capacity then some { p with queue := p.queue ++ [task] }
  else none

def dequeue (worker : Nat) (p : Pool σ) : Option (Pool σ) :=
  match p.queue with
  | [] => none
  | task :: queue =>
    some { p with
      queue
      outstanding := p.outstanding + 1
      workers := p.workers.set worker (.busy task task.actions) }

/-- A worker does an action, after which some are left. -/
def perform (worker : Nat) (task : Task σ) (action : σ → Option σ) (rest : List (σ → Option σ))
    (p : Pool σ) : Option (Pool σ) :=
  (action p.shared).map fun shared =>
    { p with shared, workers := p.workers.set worker (.busy task rest) }

def conclude (worker : Nat) (task : Task σ) (p : Pool σ) : Pool σ :=
  { p with
    outstanding := p.outstanding - 1
    errors := p.errors ++ (task.trouble.map Trouble.message).toList
    workers := p.workers.set worker .idle }

/-- The pool after an event, if the event can happen. -/
def step (event : Event σ) (p : Pool σ) : Option (Pool σ) :=
  match event with
  | .submit task => p.enqueue task
  | .take w =>
    match p.workers[w]? with
    | some .idle => p.dequeue w
    | _ => none
  | .act w =>
    match p.workers[w]? with
    | some (.busy task (action :: rest)) => p.perform w task action rest
    | _ => none
  | .finish w =>
    match p.workers[w]? with
    | some (.busy task []) => some (p.conclude w task)
    | _ => none
  | .leave w =>
    match p.workers[w]? with
    | some .idle =>
      if !p.running ∧ p.queue.isEmpty then some { p with workers := p.workers.eraseIdx w } else none
    | _ => none
  | .clearErrors => some { p with errors := [] }
  | .halt => if p.running then some { p with running := false } else none
  | .start =>
    if !p.running ∧ p.workers.isEmpty then
      some { p with running := true, workers := List.replicate p.size .idle }
    else none
  | .resize size =>
    if !p.running ∧ p.workers.isEmpty then some { p with size := max size 1 } else none

/-- The pool after a list of events, if they can happen in this order. -/
def run : List (Event σ) → Pool σ → Option (Pool σ)
  | [], p => some p
  | event :: events, p => (p.step event).bind (run events)

/-- Whether no task waits and none is being done. -/
def isIdle (p : Pool σ) : Bool := p.queue.isEmpty && p.outstanding == 0

/-! ## Letting the workers go on -/

def movesOf (w : Nat) : List (Event σ) := [.take w, .act w, .finish w, .leave w]

/-- The pool after the first move that some worker can make, the first workers before the others. -/
def advance? (p : Pool σ) : Option (Pool σ) :=
  ((List.range p.workers.length).flatMap movesOf).findSome? p.step

/-- What is left to do for a worker. -/
def Worker.weight : Worker σ → Nat
  | .idle => 1
  | .busy _ rest => rest.length + 2

/-- How many moves the workers can make before more tasks come in. -/
def weight (p : Pool σ) : Nat :=
  (p.queue.map fun task => task.actions.length + 2).sum + (p.workers.map Worker.weight).sum

/-- Makes a number of moves, or fewer if no worker can move. -/
def advance : Nat → Pool σ → Pool σ
  | 0, p => p
  | moves + 1, p =>
    match p.advance? with
    | some p => advance moves p
    | none => p

def settle (p : Pool σ) : Pool σ := p.advance p.weight

/-! ## Calls of the owner -/

/-- Submits a task: the pool with the task, `none` where the caller has to wait for room, or a
refusal where the pool is stopped. -/
def submit? (task : Task σ) (p : Pool σ) : Except Fault (Option (Pool σ)) :=
  if p.running then .ok (p.step (.submit task)) else .error .stoppedPool

/-- Starts the pool; a running pool stays as it is. -/
def start (p : Pool σ) : Pool σ := (p.step .start).getD p

/-- Stops the pool and lets the workers empty the queue and leave; a stopped pool stays as it is. -/
def stop (p : Pool σ) : Pool σ :=
  match p.step .halt with
  | some p => p.settle
  | none => p

def cycle (p : Pool σ) : Pool σ := p.stop.start

def resize (size : Nat) (p : Pool σ) : Pool σ :=
  let p := p.stop
  ((p.step (.resize size)).getD p).start

def clearErrors (p : Pool σ) : Pool σ := { p with errors := [] }

def create (size capacity : Nat) (shared : σ) : Pool σ := (stopped size capacity shared).start

def modifyShared (f : σ → σ) (p : Pool σ) : Pool σ := { p with shared := f p.shared }

end Pool

end PointTiles
