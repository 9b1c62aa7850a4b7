import PointTiles.Hierarchy
import PointTiles.Pool

/-! # Loading hierarchies

A hierarchy is spread over pages. Loading starts with the page of the root and goes on with the
pages that other pages point to, round by round. A caller submits one task for each page of a round
to a pool, waits until the pool is idle, and gathers what the tasks found. No page is requested
twice.

* `Source`: the text of a page by address, or the trouble in getting it.
* `Workspace`: what the tasks of a load write to.
* `pageTask`: fetches, reads and merges one page.
* `Load`: a pool together with its caller; `Load.step` interleaves the caller, the workers and other
  users of the pool.
* `Load.run`: one schedule, in which the caller goes first whenever it can.
* `loadHierarchy`: the pool after a load, and its result.

The result of a load is the list of messages that the pool's error list has gained meanwhile.
-/

namespace PointTiles
set_option autoImplicit false

-- Powers of numbers are those of the core library, whatever else is imported.
attribute [local instance (high)] instPowNat

/-- Where pages come from. -/
abbrev Source := Address → Except Trouble String

structure Workspace (α : Type) where
  hierarchy : Hierarchy α
  /-- Keys of pages that merged pages point to, not yet gathered by the caller. -/
  discovered : List (Key α)
  /-- The addresses of the pages fetched, the earliest first. -/
  fetched : List Address

variable {α : Type} [Coordinate α]

/-! ## The task of one page -/

namespace Workspace

/-- The workspace of a load that begins with a hierarchy. -/
def ofHierarchy (h : Hierarchy α) : Workspace α := ⟨h, [], []⟩

def noteFetch (a : Address) (w : Workspace α) : Workspace α :=
  { w with fetched := w.fetched ++ [a] }

def mergePage (root : Box α) (page : Page) (w : Workspace α) : Workspace α :=
  { w with hierarchy := (w.hierarchy.mergePage root page).1 }

def discover (keys : List (Key α)) (w : Workspace α) : Workspace α :=
  { w with discovered := w.discovered ++ keys }

end Workspace

/-- The keys that a page points to, or the fault that stops its merging. Neither depends on the
hierarchy it is merged into. -/
def Page.subtrees (root : Box α) (page : Page) : Except Fault (List (Key α)) :=
  (Hierarchy.empty.mergePage root page).2

def pageTask (source : Source) (root : Box α) (a : Address) : Pool.Task (Workspace α) :=
  let fetch : Workspace α → Option (Workspace α) := fun w => some (w.noteFetch a)
  match source a with
  | .error trouble => ⟨[fetch], some (trouble.during ("fetching hierarchy page " ++ a.text))⟩
  | .ok text =>
    match Page.parse text with
    | .error fault =>
      ⟨[fetch], some ((Trouble.ofFault fault).during ("parsing hierarchy page " ++ a.text))⟩
    | .ok page =>
      let merge : Workspace α → Option (Workspace α) := fun w => some (w.mergePage root page)
      match page.subtrees root with
      | .error fault => ⟨[fetch, merge], some (.ofFault fault)⟩
      | .ok keys => ⟨[fetch, merge, fun w => some (w.discover keys)], none⟩

/-! ## The caller -/

/-- Where the caller of a load stands. -/
inductive Phase (α : Type) where
  | beginning
  /-- A round is to be made up from these keys. -/
  | opening (keys : List (Key α))
  /-- The tasks of these pages are to be submitted. -/
  | submitting (keys : List (Key α))
  /-- The caller waits until the pool is idle. -/
  | awaiting
  /-- The keys found in a round are to be gathered. -/
  | gathering
  | reporting
  | finished (result : Except Fault Unit)

structure Load (α : Type) where
  pool : Pool (Workspace α)
  phase : Phase α
  /-- The pages for which a round has been made up. -/
  requested : List Address
  /-- The length of the pool's error list at the beginning. -/
  errorsBefore : Nat

/-- The keys whose pages have not been requested, each once, in order. -/
def unrequested (requested : List Address) : List (Key α) → List (Key α)
  | [] => []
  | key :: keys =>
    if key.address ∈ requested then unrequested requested keys
    else key :: unrequested (key.address :: requested) keys

namespace Load

inductive Event (α : Type) where
  | caller
  /-- Something happens to the pool: a move of a worker, or a call of another user. -/
  | pool (event : Pool.Event (Workspace α))

def initial (pool : Pool (Workspace α)) : Load α := ⟨pool, .beginning, [], 0⟩

/-- The load after its caller has moved on, if the caller need not wait. -/
def callerStep (source : Source) (root : Box α) (load : Load α) : Option (Load α) :=
  match load.phase with
  | .beginning =>
    some
      { load with
        pool := load.pool.modifyShared fun w => { w with discovered := [], fetched := [] }
        phase := .opening [Key.root root]
        errorsBefore := load.pool.errors.length }
  | .opening keys =>
    let fresh := unrequested load.requested keys
    let requested := load.requested ++ fresh.map Key.address
    some { load with requested, phase := if fresh.isEmpty then .reporting else .submitting fresh }
  | .submitting [] => some { load with phase := .awaiting }
  | .submitting (key :: keys) =>
    match load.pool.submit? (pageTask source root key.address) with
    | .error fault => some { load with phase := .finished (.error fault) }
    | .ok none => none
    | .ok (some pool) => some { load with pool, phase := .submitting keys }
  | .awaiting => if load.pool.isIdle then some { load with phase := .gathering } else none
  | .gathering =>
    some
      { load with
        pool := load.pool.modifyShared fun w => { w with discovered := [] }
        phase := .opening load.pool.shared.discovered }
  | .reporting =>
    let messages := load.pool.errors.drop load.errorsBefore
    some
      { load with
        phase := .finished (if messages.isEmpty then .ok () else .error (.taskFailures messages)) }
  | .finished _ => none

/-- The load after an event, if the event can happen. -/
def step (source : Source) (root : Box α) (event : Event α) (load : Load α) : Option (Load α) :=
  match event with
  | .caller => load.callerStep source root
  | .pool event => (load.pool.step event).map fun pool => { load with pool }

/-- The load after a list of events, if they can happen in this order. -/
def runEvents (source : Source) (root : Box α) : List (Event α) → Load α → Option (Load α)
  | [], load => some load
  | event :: events, load => (load.step source root event).bind (runEvents source root events)

/-- The result, once the call has returned. -/
def result? (load : Load α) : Option (Except Fault Unit) :=
  match load.phase with
  | .finished result => some result
  | _ => none

/-! ## One schedule -/

/-- The load after the caller's next move, or that of a worker where the caller has to wait. -/
def advance? (source : Source) (root : Box α) (load : Load α) : Option (Load α) :=
  match load.callerStep source root with
  | some load => some load
  | none =>
    match load.phase with
    | .finished _ => none
    | _ => load.pool.advance?.map fun pool => { load with pool }

/-- Makes a number of moves, or fewer if the call returns. -/
def advance (source : Source) (root : Box α) : Nat → Load α → Load α
  | 0, load => load
  | moves + 1, load =>
    match load.advance? source root with
    | some load => advance source root moves load
    | none => load

/-- More moves than any load makes. There are fewer than `2 ^ 190` addresses down to the deepest
level, and a page that is requested once costs the caller and the workers few moves. -/
def moveLimit (pool : Pool (Workspace α)) : Nat := pool.weight + 2 ^ (200 : Nat)

def run (source : Source) (root : Box α) (pool : Pool (Workspace α)) : Load α :=
  (initial pool).advance source root (moveLimit pool)

end Load

/-- Loads the pages of a hierarchy: the pool then, and the result of the call. -/
def loadHierarchy (source : Source) (root : Box α) (pool : Pool (Workspace α)) :
    Pool (Workspace α) × Except Fault Unit :=
  let load := Load.run source root pool
  (load.pool, load.result?.getD (.ok ()))

end PointTiles
