/-! # Shortest decimals

The shortest decimal of a floating-point number is the decimal with the fewest digits among those
that round to the number; of several with equally few digits it is the nearest, and of two equally
near ones the even one.

* `Binary`: a positive number `mantissa · 2 ^ exponent` together with the interval of reals that
  round to it.
* `Scientific`: digits `d₁ d₂ … dₙ` with no trailing zero and the power of ten of the first.
* `shortest`: walks the decimal grids from one digit to seventeen; seventeen always suffice.
-/

namespace PointTiles.Decimal
set_option autoImplicit false

-- Powers of numbers are those of the core library, whatever else is imported.
attribute [local instance (high)] instPowNat

/-- A positive number `mantissa · 2 ^ exponent`. Its lower neighbour is half as far away as its
upper one where `narrowBelow` holds, and at the same distance otherwise. -/
structure Binary where
  mantissa : Nat
  exponent : Int
  narrowBelow : Bool

/-- The magnitude of a finite nonzero double, from its bit pattern. -/
def Binary.ofBits (bits : UInt64) : Binary :=
  let fraction := bits.toNat % 2 ^ (52 : Nat)
  let scale := bits.toNat / 2 ^ (52 : Nat) % 2 ^ (11 : Nat)
  if scale = 0 then ⟨fraction, -1074, false⟩
  else ⟨fraction + 2 ^ (52 : Nat), Int.ofNat scale - 1075, fraction = 0 ∧ 1 < scale⟩

/-- Decimal digits with the power of ten of the first. -/
structure Scientific where
  digits : List Char
  leading : Int

/-- The power of ten of the leading digit. Scaling by `10 ^ 400` turns every double into a number
above one, and cutting off its fraction leaves the count of its digits alone. -/
def Binary.leading (b : Binary) : Int :=
  let scaled := b.mantissa * 2 ^ b.exponent.toNat * 10 ^ (400 : Nat) / 2 ^ (-b.exponent).toNat
  ((Nat.toDigits 10 scaled).length : Int) - 401

/-- The candidate on the grid of multiples of `10 ^ power`: of the two multiples around the number,
the nearer one that rounds to it.

Quarters of the mantissa's unit make the ends of the rounding interval whole, and one common factor
makes both the number and the grid whole. -/
def Binary.onGrid? (b : Binary) (power : Int) : Option Nat :=
  let unit := 2 ^ (b.exponent - 2).toNat * 10 ^ (-power).toNat
  let step := 10 ^ power.toNat * 2 ^ (2 - b.exponent).toNat
  let number := 4 * b.mantissa * unit
  let high := (4 * b.mantissa + 2) * unit
  let low := (4 * b.mantissa - if b.narrowBelow then 1 else 2) * unit
  let rounds (d : Nat) : Bool :=
    if b.mantissa % 2 = 0 then low ≤ d * step && d * step ≤ high
    else low < d * step && d * step < high
  let below := number / step
  let above := below + 1
  let gapBelow := number - below * step
  let gapAbove := above * step - number
  let preferBelow := gapBelow < gapAbove || (gapBelow = gapAbove && below % 2 = 0)
  match 0 < below && rounds below, rounds above with
  | true, true => some (if preferBelow then below else above)
  | true, false => some below
  | false, true => some above
  | false, false => none

def dropTrailingZeros (cs : List Char) : List Char := (cs.reverse.dropWhile (· = '0')).reverse

/-- Searches `left` grids, the first of which holds decimals of `count` digits. -/
def Binary.search (b : Binary) (leading : Int) : (left : Nat) → (count : Nat) → Scientific
  | 0, _ => ⟨['0'], 0⟩
  | left + 1, count =>
    let power := leading - count + 1
    match b.onGrid? power with
    | some d =>
      let ds := Nat.toDigits 10 d
      ⟨dropTrailingZeros ds, power + ds.length - 1⟩
    | none => b.search leading left (count + 1)

def Binary.shortest (b : Binary) : Scientific := b.search b.leading 17 1

end PointTiles.Decimal
