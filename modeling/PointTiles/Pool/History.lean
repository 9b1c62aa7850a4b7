import PointTiles.Pool

/-! # What has happened to a pool

A pool keeps no record of its past. `History` is such a record, kept beside the pool while events
happen to it: which tasks were accepted, which were taken and which have ended, each in order, and
which have ended since the messages were last dropped.
-/

namespace PointTiles.Pool
set_option autoImplicit false

variable {σ : Type}

structure History (σ : Type) where
  accepted : List (Task σ)
  taken : List (Task σ)
  ended : List (Task σ)
  endedSinceClear : List (Task σ)

namespace History

def empty : History σ := ⟨[], [], [], []⟩

/-- The history after an event that happens to a pool. -/
def record (event : Event σ) (p : Pool σ) (h : History σ) : History σ :=
  match event with
  | .submit task => { h with accepted := h.accepted ++ [task] }
  | .take _ => { h with taken := h.taken ++ p.queue.take 1 }
  | .finish w =>
    match p.workers[w]? with
    | some (.busy task _) =>
      { h with
        ended := h.ended ++ [task]
        endedSinceClear := h.endedSinceClear ++ [task] }
    | _ => h
  | .clearErrors => { h with endedSinceClear := [] }
  | _ => h

end History

/-- The tasks that workers are busy with, in the order of the workers. -/
def executing (p : Pool σ) : List (Task σ) :=
  p.workers.filterMap fun
    | .busy task _ => some task
    | .idle => none

/-- The messages of the tasks that failed. -/
def messagesOf (tasks : List (Task σ)) : List String :=
  tasks.filterMap fun task => task.trouble.map Trouble.message

end PointTiles.Pool
