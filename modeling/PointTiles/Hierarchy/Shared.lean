import PointTiles.Hierarchy

/-! # Threads that share a hierarchy

A call on a hierarchy has it to itself from its beginning to its end, so threads that share one take
turns, a call at a time. Which thread is next is left open.

* `Call`: the calls that change a hierarchy; `Call.perform`: what a call does and answers, and
  `Call.writes`: the counts it writes when it succeeds.
* `Origin`: how a hierarchy comes about.
* `lastWritten`: what a list of written counts has for an address, the last count that counts.
* `Shared`: a hierarchy, what every thread has still to do with it, and the calls made so far.
-/

namespace PointTiles
set_option autoImplicit false

/-- The counts of the entries, in their order; a subtree has none. -/
def countsOf (entries : List (Address × PageEntry)) : List (Address × UInt64) :=
  entries.filterMap fun
    | (a, .points n) => some (a, n)
    | (_, .subtree) => none

namespace Hierarchy

variable {α : Type}

inductive Call (α : Type) where
  | merge (key : Key α) (count : UInt64)
  | mergePage (root : Box α) (page : Page)

namespace Call

def perform [Coordinate α] (h : Hierarchy α) : Call α → Hierarchy α × Except Fault (List (Key α))
  | merge key count => (h.merge key count, .ok [])
  | mergePage root page => h.mergePage root page

def writes : Call α → List (Address × UInt64)
  | merge key count => [(key.address, count)]
  | mergePage _ page => countsOf page.toList

end Call

inductive Origin (α : Type) where
  | new
  | ofList (entries : List (Key α × UInt64))

namespace Origin

def hierarchy : Origin α → Hierarchy α
  | new => .empty
  | ofList entries => .ofList entries

def writes : Origin α → List (Address × UInt64)
  | new => []
  | ofList entries => entries.map fun e => (e.1.address, e.2)

end Origin

def lastWritten (writes : List (Address × UInt64)) (a : Address) : Option UInt64 :=
  writes.reverse.lookup a

structure Shared (α : Type) where
  hierarchy : Hierarchy α
  /-- What each thread has still to do, the next call first. -/
  threads : List (List (Call α))
  /-- The calls made so far, each with its answer. -/
  made : List (Call α × Except Fault (List (Key α)))

namespace Shared

def begin (origin : Origin α) (threads : List (List (Call α))) : Shared α :=
  ⟨origin.hierarchy, threads, []⟩

/-- The counts that the calls made so far have written, if all of them succeeded. -/
def writes (s : Shared α) : List (Address × UInt64) := s.made.flatMap fun entry => entry.1.writes

variable [Coordinate α]

/-- The next call of thread `i`, if it has one. -/
def step (i : Nat) (s : Shared α) : Option (Shared α) :=
  match s.threads[i]? with
  | some (call :: calls) =>
    let (h, answer) := call.perform s.hierarchy
    some ⟨h, s.threads.set i calls, s.made ++ [(call, answer)]⟩
  | _ => none

/-- Calls of these threads, in this order. -/
def run : List Nat → Shared α → Option (Shared α)
  | [], s => some s
  | i :: schedule, s => (s.step i).bind (run schedule)

end Shared

end Hierarchy

end PointTiles
