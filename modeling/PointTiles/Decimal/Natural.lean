/-! # Natural numbers in decimal

* `digits n`: the decimal digits of `n`, most significant first, with no leading zero.
* `value? cs`: the number that a nonempty run of decimal digits denotes; leading zeros are allowed.
* `word? cs`: the same, restricted to 64-bit words.
-/

namespace PointTiles.Decimal
set_option autoImplicit false

def digits (n : Nat) : List Char := Nat.toDigits 10 n

def digitValue (c : Char) : Nat := c.toNat - '0'.toNat

/-- Reads further digits onto the number read so far. -/
def appendDigits (n : Nat) (cs : List Char) : Nat := cs.foldl (fun n c => 10 * n + digitValue c) n

/-- The number a run of decimal digits denotes. Signs, blanks and the empty run denote none. -/
def value? (cs : List Char) : Option Nat :=
  if cs ≠ [] ∧ cs.all Char.isDigit then some (appendDigits 0 cs) else none

def word? (cs : List Char) : Option UInt64 :=
  match value? cs with
  | some n => if n < UInt64.size then some (UInt64.ofNat n) else none
  | none => none

end PointTiles.Decimal
