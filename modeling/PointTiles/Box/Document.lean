import PointTiles.Box

/-! # Boxes in documents

A document gives a box as an array of its six components, which have to be numbers and in order on
every axis.
-/

namespace PointTiles
set_option autoImplicit false

/-- The ordered box that a value gives, if any. -/
def Box.ofJson? (json : Json) : Option (Box Float) := do
  match json with
  | .array items =>
    let box ← Box.ofList? (← items.mapM Json.float?)
    if box.ordered then some box else none
  | _ => none

def Box.ofJson (json : Json) : Except Fault (Box Float) :=
  match Box.ofJson? json with
  | some box => .ok box
  | none => .error (.invalidBounds json)

end PointTiles
