import PointTiles.PointTable

/-! # Point tables in words

Access to a table on a machine with a greatest number, `top`. Such a machine stops, which is `none`
here, at a sum or a product beyond that number, at a division by zero, at a slice that is not inside
its buffer, and where bytes are copied over a slice of another length.

* `Size.add?`, `mul?`, `div?`, `Buffer.slice?`, `copy?`: the operations.
* `InWords`: what answers or fails, on a machine that may stop.
* `PointTable.pointInWords`, `fieldInWords`, `setFieldInWords`: access by these operations.
-/

namespace PointTiles
set_option autoImplicit false

/-! ## Operations -/

namespace Size

def add? (top a b : Nat) : Option Nat := if a + b ≤ top then some (a + b) else none

def mul? (top a b : Nat) : Option Nat := if a * b ≤ top then some (a * b) else none

def div? (a b : Nat) : Option Nat := if b = 0 then none else some (a / b)

end Size

namespace Buffer

/-- The bytes from `start` to before `stop`. -/
def slice? (data : List UInt8) (start stop : Nat) : Option (List UInt8) :=
  if start ≤ stop ∧ stop ≤ data.length then some ((data.drop start).take (stop - start)) else none

/-- The buffer with other bytes from `start` to before `stop`, as many as there were. -/
def copy? (data : List UInt8) (start stop : Nat) (value : List UInt8) : Option (List UInt8) := do
  let replaced ← slice? data start stop
  if replaced.length = value.length then some (data.take start ++ value ++ data.drop stop) else none

end Buffer

/-- What answers or fails, on a machine that may stop. -/
abbrev InWords (α : Type) := ExceptT Fault Option α

namespace InWords

variable {α β : Type} {call : InWords α}

theorem run_lift (a : α) : (liftM (some a) : InWords α).run = some (.ok a) := rfl

theorem run_throw (fault : Fault) : (throw fault : InWords α).run = some (.error fault) := rfl

theorem run_bind_of_ok {a : α} (h : call.run = some (.ok a)) (next : α → InWords β) :
    (call >>= next).run = (next a).run := by
  rw [ExceptT.run_bind, h]
  rfl

theorem run_bind_of_error {fault : Fault} (h : call.run = some (.error fault))
    (next : α → InWords β) : (call >>= next).run = some (.error fault) := by
  rw [ExceptT.run_bind, h]
  rfl

end InWords

/-! ## Access -/

namespace PointTable

def sizeInWords (t : PointTable) : Option Nat :=
  if t.layout.pointSize = 0 then some 0 else Size.div? t.data.length t.layout.pointSize

variable (top : Nat) (t : PointTable) (id index : Nat)

def pointStartInWords : InWords Nat := do
  let capacity ← t.sizeInWords
  if capacity ≤ index then throw (.pointOutOfRange index capacity)
  Size.mul? top index t.layout.pointSize

def pointInWords : InWords (List UInt8) := do
  let start ← t.pointStartInWords top index
  let stop ← Size.add? top start t.layout.pointSize
  Buffer.slice? t.data start stop

def fieldRangeInWords : InWords (Nat × Nat) := do
  match t.layout.dimension? id with
  | none => throw (.unknownDimension id)
  | some d =>
    let start ← Size.add? top (← t.pointStartInWords top index) d.offset
    return (start, d.size)

def fieldInWords : InWords (List UInt8) := do
  let (start, size) ← t.fieldRangeInWords top id index
  let stop ← Size.add? top start size
  Buffer.slice? t.data start stop

def setFieldInWords (value : List UInt8) : InWords PointTable := do
  let (start, size) ← t.fieldRangeInWords top id index
  if value.length ≠ size then throw (.fieldSize size value.length)
  let stop ← Size.add? top start size
  let data ← Buffer.copy? t.data start stop value
  return { t with data }

end PointTable

end PointTiles
