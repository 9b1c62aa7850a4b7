import PointTiles.Key

/-! # Descending in words

The way to an address on a machine of 64-bit words: the bits of the three coordinates are shifted
out level by level, and each level makes a direction byte. Such a machine stops at an operation that
has no result, a shift by the width of a word or a sum that does not fit, which is `none` here.

* `Word.shiftLeft?`, `shiftRight?`, `add?`: the operations.
* `Address.directionAt?`: the direction byte at a level.
* `Key.bisectInWords`, `Key.followInWords`, `Key.descendInWords`: bisection and descent by these
  operations. Of a direction byte only the low three bits count.
-/

namespace PointTiles
set_option autoImplicit false

namespace Word

def shiftLeft? (c n : UInt64) : Option UInt64 := if n < 64 then some (c <<< n) else none

def shiftRight? (c n : UInt64) : Option UInt64 := if n < 64 then some (c >>> n) else none

def add? (c d : UInt64) : Option UInt64 :=
  if c.toNat + d.toNat < UInt64.size then some (c + d) else none

def bit? (c level : UInt64) : Option UInt64 := (shiftRight? c level).map (· &&& 1)

/-- A coordinate one level deeper, in the lower or the upper half. -/
def double? (upper : Bool) (c : UInt64) : Option UInt64 := do
  let twice ← shiftLeft? c 1
  if upper then add? twice 1 else some twice

end Word

/-- The byte whose bits 0, 1 and 2 are bit `level` of `x`, `y` and `z`. -/
def Address.directionAt? (a : Address) (level : UInt64) : Option UInt8 := do
  let x ← Word.bit? a.cell.x level
  let y ← Word.shiftLeft? (← Word.bit? a.cell.y level) 1
  let z ← Word.shiftLeft? (← Word.bit? a.cell.z level) 2
  some (x ||| y ||| z).toUInt8

/-- The levels below which an address lies, the highest first. -/
def Address.levels (a : Address) : List UInt64 :=
  (List.range a.depth.toNat).reverse.map UInt64.ofNat

namespace Key

variable {α : Type} [Coordinate α]

def bisectInWords (direction : UInt8) (key : Key α) : Option (Key α) := do
  let octant := Octant.ofByte (direction &&& 7)
  let x ← Word.double? octant.x key.address.cell.x
  let y ← Word.double? octant.y key.address.cell.y
  let z ← Word.double? octant.z key.address.cell.z
  let depth ← Word.add? key.address.depth 1
  some ⟨⟨depth, ⟨x, y, z⟩⟩, key.bounds.octant octant⟩

def followInWords : List UInt8 → Key α → Option (Key α)
  | [], key => some key
  | direction :: directions, key => do followInWords directions (← key.bisectInWords direction)

/-- Bisects once for each of the levels, in the direction that an address takes there. -/
def walk (a : Address) : List UInt64 → Key α → Option (Key α)
  | [], key => some key
  | level :: levels, key => do walk a levels (← key.bisectInWords (← a.directionAt? level))

def descendInWords (bounds : Box α) (a : Address) : Option (Except Fault (Key α)) :=
  if Address.maxDepth < a.depth.toNat then some (.error (.keyTooDeep a))
  else do
    let beyond ← Word.shiftRight? (a.cell.x ||| a.cell.y ||| a.cell.z) a.depth
    if beyond ≠ 0 then some (.error (.keyOutsideGrid a))
    else (walk a a.levels (root bounds)).map .ok

end Key

end PointTiles
