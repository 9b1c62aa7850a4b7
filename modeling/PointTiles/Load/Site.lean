import PointTiles.Load

/-! # Loads into one hierarchy

Several loads may go on at once, each with its pages and its pool, and enter their counts into one
hierarchy. Pages may be merged into it without a load as well. Whoever merges a page has the
hierarchy to itself meanwhile.

* `Site`: the hierarchy and the loads that have begun.
* `Site.step`: interleaves the loads, the users of their pools and the merging of other pages.
-/

namespace PointTiles
set_option autoImplicit false

variable {α : Type}

structure Site (α : Type) where
  hierarchy : Hierarchy α
  /-- The loads that have begun, each with its source. -/
  loads : List (Source × Load α)

namespace Site

def empty : Site α := ⟨.empty, []⟩

inductive Move (α : Type) where
  | merge (page : Page)
  /-- A load begins on a pool. -/
  | begin (source : Source) (pool : Pool (Workspace α))
  /-- The load at a place goes on, or something happens to its pool. -/
  | load (i : Nat) (event : Load.Event α)

/-- The load, with this hierarchy to work on. -/
def bring (h : Hierarchy α) (load : Load α) : Load α :=
  { load with pool := load.pool.modifyShared fun w => { w with hierarchy := h } }

variable [Coordinate α]

/-- The site after a move, if the move can be made. -/
def step (root : Box α) (move : Move α) (site : Site α) : Option (Site α) :=
  match move with
  | .merge page => some { site with hierarchy := (site.hierarchy.mergePage root page).1 }
  | .begin source pool => some { site with loads := site.loads ++ [(source, .initial pool)] }
  | .load i event =>
    match site.loads[i]? with
    | some (source, load) =>
      ((bring site.hierarchy load).step source root event).map fun load =>
        ⟨load.pool.shared.hierarchy, site.loads.set i (source, load)⟩
    | none => none

/-- The site after a list of moves, if they can be made in this order. -/
def run (root : Box α) : List (Move α) → Site α → Option (Site α)
  | [], site => some site
  | move :: moves, site => (site.step root move).bind (run root moves)

end Site

end PointTiles
