import PointTiles.Address
import PointTiles.Decimal.Natural

/-! # Addresses as text

An address is written `depth-x-y-z` in decimal. Reading accepts four nonempty runs of digits joined
by single dashes, each a 64-bit word, leading zeros included, and nothing else.
-/

namespace PointTiles
set_option autoImplicit false

/-- The pieces of a text between separators; one more than there are separators. -/
def pieces (separator : Char) : List Char → List (List Char)
  | [] => [[]]
  | c :: cs =>
    match pieces separator cs with
    | [] => [[c]]
    | piece :: others => if c = separator then [] :: piece :: others else (c :: piece) :: others

namespace Address

def chars (a : Address) : List Char :=
  Decimal.digits a.depth.toNat ++ '-' :: Decimal.digits a.cell.x.toNat ++
    '-' :: Decimal.digits a.cell.y.toNat ++ '-' :: Decimal.digits a.cell.z.toNat

def text (a : Address) : String := String.ofList a.chars

def ofChars? (cs : List Char) : Option Address :=
  match pieces '-' cs with
  | [depth, x, y, z] => do
    let depth ← Decimal.word? depth
    let x ← Decimal.word? x
    let y ← Decimal.word? y
    let z ← Decimal.word? z
    some ⟨depth, ⟨x, y, z⟩⟩
  | _ => none

def ofText? (s : String) : Option Address := ofChars? s.toList

end Address

end PointTiles
