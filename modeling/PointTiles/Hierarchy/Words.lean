import PointTiles.Hierarchy
import PointTiles.Key.Words

/-! # Merging in words

Merging on a machine of 64-bit words. Every key is found by operations on words, and such a machine
stops, which is `none` here, where one of them has no result.
-/

namespace PointTiles.Hierarchy
set_option autoImplicit false

variable {α : Type} [Coordinate α]

def mergeEntriesInWords (root : Box α) : List (Address × PageEntry) → Hierarchy α →
    Option (Hierarchy α × Except Fault (List (Key α)))
  | [], h => some (h, .ok [])
  | (a, entry) :: entries, h => do
    match ← Key.descendInWords root a, entry with
    | .error fault, _ => some (h, .error fault)
    | .ok key, .points n => mergeEntriesInWords root entries (h.merge key n)
    | .ok key, .subtree =>
      let (h, found) ← mergeEntriesInWords root entries h
      some (h, found.map (key :: ·))

def mergePageInWords (root : Box α) (page : Page) (h : Hierarchy α) :
    Option (Hierarchy α × Except Fault (List (Key α))) :=
  mergeEntriesInWords root page.toList h

end PointTiles.Hierarchy
