import PointTiles.Key
import PointTiles.Page

/-! # Hierarchies

A hierarchy maps addresses to point counts. It also keeps the box that a node had when it was first
entered. An address that is not in the map has no points.

* `merge`: enters a count; the box of an earlier entry stays.
* `mergePage`: enters the counts of a page in address order, with boxes derived from a root box, and
  answers the keys whose subtrees have pages of their own. A key that is in no grid stops it there,
  with the entries before it in place.
* `total`: the sum of all counts, which has to fit a word.
-/

namespace PointTiles
set_option autoImplicit false

/-- What a hierarchy keeps of a node. -/
structure Node (α : Type) where
  bounds : Box α
  count : UInt64

structure Hierarchy (α : Type) where
  nodes : Std.TreeMap Address (Node α)

namespace Hierarchy

variable {α : Type} [Coordinate α]

def empty : Hierarchy α := ⟨∅⟩

def count (h : Hierarchy α) (key : Key α) : UInt64 :=
  match h.nodes[key.address]? with
  | some node => node.count
  | none => 0

/-- The box to keep for a key: that of an earlier entry if there is one. -/
def keptBounds (h : Hierarchy α) (key : Key α) : Box α :=
  match h.nodes[key.address]? with
  | some node => node.bounds
  | none => key.bounds

def merge (h : Hierarchy α) (key : Key α) (count : UInt64) : Hierarchy α :=
  ⟨h.nodes.insert key.address ⟨h.keptBounds key, count⟩⟩

/-- The hierarchy of a list of keys and counts. Of equal keys the last one is kept, with its box. -/
def ofList (entries : List (Key α × UInt64)) : Hierarchy α :=
  ⟨entries.foldl (fun nodes e => nodes.insert e.1.address ⟨e.1.bounds, e.2⟩) ∅⟩

/-- Enters page entries up to the first that is in no grid. Answers the hierarchy then, and the keys
of subtrees or the fault. -/
def mergeEntries (root : Box α) : List (Address × PageEntry) → Hierarchy α →
    Hierarchy α × Except Fault (List (Key α))
  | [], h => (h, .ok [])
  | (a, entry) :: entries, h =>
    match Key.descend root a, entry with
    | .error fault, _ => (h, .error fault)
    | .ok key, .points n => mergeEntries root entries (h.merge key n)
    | .ok key, .subtree =>
      let (h, found) := mergeEntries root entries h
      (h, found.map (key :: ·))

def mergePage (root : Box α) (page : Page) (h : Hierarchy α) :
    Hierarchy α × Except Fault (List (Key α)) :=
  mergeEntries root page.toList h

def size (h : Hierarchy α) : Nat := h.nodes.size

def isEmpty (h : Hierarchy α) : Bool := h.nodes.isEmpty

def toList (h : Hierarchy α) : List (Key α × UInt64) :=
  h.nodes.toList.map (fun e => (⟨e.1, e.2.bounds⟩, e.2.count))

def keys (h : Hierarchy α) : List (Key α) := h.toList.map Prod.fst

/-- The sum of words, if it is a word. -/
def sumWords : List UInt64 → UInt64 → Except Fault UInt64
  | [], sum => .ok sum
  | n :: ns, sum =>
    if sum.toNat + n.toNat < UInt64.size then sumWords ns (sum + n) else .error .additionOverflow

def total (h : Hierarchy α) : Except Fault UInt64 := sumWords (h.toList.map Prod.snd) 0

end Hierarchy

end PointTiles
