import PointTiles.Pool.Monitor

/-! # The owner of a pool

The owner starts, stops, cycles and resizes its pool. It has the pool to itself while it does: no
other call is under way when its call begins, and none begins before it has returned. The workers go
on meanwhile.

* `Owned.Call`, `Owned.Part`: the calls of the owner and what they are made of.
* `Owned`: the monitor of a pool and what its owner has still to do.
* `Owned.step`: interleaves the owner, the other callers and the workers.
-/

namespace PointTiles
set_option autoImplicit false

namespace Owned

/-- The calls of the owner. To drop a pool is to stop it. -/
inductive Call where
  | start
  | stop
  | cycle
  | resize (size : Nat)
  deriving DecidableEq, Repr

/-- The parts of a call. -/
inductive Part where
  /-- To halt the pool, if it runs, and to wait until its workers have left. -/
  | stop
  | setSize (size : Nat)
  /-- To bring the workers to life, unless the pool runs. -/
  | start
  deriving DecidableEq, Repr

def Call.parts : Call → List Part
  | start => [.start]
  | stop => [.stop]
  | cycle => [.stop, .start]
  | resize size => [.stop, .setSize size, .start]

end Owned

structure Owned (σ : Type) where
  monitor : Monitor σ
  /-- What is left of the owner's call. -/
  todo : List Owned.Part

namespace Owned

variable {σ : Type}

/-- A pool as it is made, and started. -/
def create (size capacity : Nat) (shared : σ) : Owned σ :=
  ⟨.ofPool (.create size capacity shared), []⟩

inductive Move (σ : Type) where
  /-- The owner makes a call. -/
  | call (call : Call)
  /-- The owner goes on with its call. -/
  | owner
  /-- Another caller or a worker moves. -/
  | thread (move : Monitor.Move σ)

/-- The owner goes on with its call, if it need not wait. -/
def ownerStep (o : Owned σ) : Option (Owned σ) :=
  match o.todo with
  | [] => none
  | .stop :: todo =>
    if o.monitor.pool.running then (o.monitor.step .halt).map fun monitor => { o with monitor }
    else if o.monitor.closer = .absent then some { o with todo }
    else none
  | .setSize size :: todo => (o.monitor.step (.resize size)).map fun monitor => ⟨monitor, todo⟩
  | .start :: todo =>
    if o.monitor.pool.running then some { o with todo }
    else (o.monitor.step .start).map fun monitor => ⟨monitor, todo⟩

/-- The pool and its owner after a move, if the move can be made. -/
def step (move : Move σ) (o : Owned σ) : Option (Owned σ) :=
  match move with
  | .call call =>
    if o.todo = [] ∧ o.monitor.quiet then some { o with todo := call.parts } else none
  | .owner => o.ownerStep
  | .thread move =>
    if move.isOwners ∨ (move.isCall ∧ o.todo ≠ []) then none
    else (o.monitor.step move).map fun monitor => { o with monitor }

/-- The pool and its owner after a list of moves, if they can be made in this order. -/
def run : List (Move σ) → Owned σ → Option (Owned σ)
  | [], o => some o
  | move :: moves, o => (o.step move).bind (run moves)

end Owned

end PointTiles
