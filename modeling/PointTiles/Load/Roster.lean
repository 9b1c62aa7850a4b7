import PointTiles.Load

/-! # Loads on a pool that others use

Others may submit tasks to the pool of a load, and drop its messages, while the load goes on. A
roster is kept beside the load. It says whose each task is, and which have ended.

* `Event.isForeign`: what others can do.
* `Roster`, `Roster.record`, `watch`: the roster along a run.
* `Roster.messages`, `Roster.own`: what has ended, and what of it is the load's own.
-/

namespace PointTiles.Load
set_option autoImplicit false

variable {α : Type}

/-- Whose the tasks in a pool are: each is that of a page of the load, or somebody else's. -/
structure Roster where
  /-- One for each task in the queue. -/
  waiting : List (Option Address)
  /-- One for each worker; none for an idle one. -/
  working : List (Option Address)
  /-- The tasks that have ended since the load was called, each with its message if it failed. -/
  ended : List (Option Address × Option String)
  /-- Those that have ended since the messages were last dropped. -/
  recent : List (Option Address × Option String)
  /-- The messages from before the load that are still there. -/
  earlier : List String

namespace Roster

/-- The roster when the load is called. -/
def arrive (pool : Pool (Workspace α)) : Roster :=
  ⟨pool.queue.map fun _ => none, pool.workers.map fun _ => none, [], [], pool.errors⟩

/-- The roster after an event that happens to a load. -/
def record (event : Event α) (load : Load α) (r : Roster) : Roster :=
  match event with
  | .caller =>
    match load.phase, load.pool.running with
    | .submitting (key :: _), true => { r with waiting := r.waiting ++ [some key.address] }
    | _, _ => r
  | .pool (.submit _) => { r with waiting := r.waiting ++ [none] }
  | .pool (.take w) =>
    { r with waiting := r.waiting.tail, working := r.working.set w r.waiting.head?.join }
  | .pool (.finish w) =>
    match load.pool.workers[w]? with
    | some (.busy task _) =>
      let entry := (r.working[w]?.join, task.trouble.map Trouble.message)
      { r with
        working := r.working.set w none
        ended := r.ended ++ [entry]
        recent := r.recent ++ [entry] }
    | _ => r
  | .pool .clearErrors => { r with recent := [], earlier := [] }
  | .pool _ => r

/-- The messages of tasks that have ended. -/
def messages (ended : List (Option Address × Option String)) : List String :=
  ended.filterMap Prod.snd

/-- The tasks of the load's pages that have ended. -/
def own (ended : List (Option Address × Option String)) :
    List (Option Address × Option String) :=
  ended.filter fun entry => entry.1.isSome

end Roster

/-- What others can do to the pool of a load: submit a task, and drop the messages. -/
def Event.isForeign : Event α → Bool
  | .pool (.submit _) | .pool .clearErrors => true
  | _ => false

variable [Coordinate α]

/-- The load and its roster after a list of events, if they can happen in this order. -/
def watch (source : Source) (root : Box α) : List (Event α) → Load α → Roster →
    Option (Load α × Roster)
  | [], load, r => some (load, r)
  | event :: events, load, r =>
    (load.step source root event).bind fun next =>
      watch source root events next (r.record event load)

end PointTiles.Load
