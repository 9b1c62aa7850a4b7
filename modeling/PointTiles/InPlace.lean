import PointTiles.PointTable

/-! # Changes in place

A layout and the buffer under a table belong to the program that uses them, and a call changes them
where they are. Such a call may fail, and it leaves something behind whether it fails or not.

* `InPlace`: a call of this kind.
* `Layout.Call`: the calls that change a layout. The number of a dimension is a word of 32 bits
  here, and a number that does not fit loses its high bits.
* `Layout.after`: the layout that a list of calls leaves.
* `Layout.write`, `Layout.grow`: the calls of a table that are made to change its buffer. A buffer
  does not grow.
-/

namespace PointTiles
set_option autoImplicit false

/-! ## Calls -/

/-- A call that changes a value of type `σ`, and answers or fails. -/
abbrev InPlace (σ α : Type) := ExceptT Fault (StateM σ) α

namespace InPlace

variable {σ α β : Type}

/-- What a call answers when it is made, and what it leaves. -/
def made (call : InPlace σ α) (s : σ) : Except Fault α × σ := (call.run.run s).run

@[simp] theorem made_pure (a : α) (s : σ) : (pure a : InPlace σ α).made s = (.ok a, s) := rfl

@[simp] theorem made_throw (fault : Fault) (s : σ) :
    (throw fault : InPlace σ α).made s = (.error fault, s) := rfl

@[simp] theorem made_lift (answer : Except Fault α) (s : σ) :
    (liftM answer : InPlace σ α).made s = (answer, s) := rfl

@[simp] theorem made_get (s : σ) : (get : InPlace σ σ).made s = (.ok s, s) := rfl

@[simp] theorem made_set (s s' : σ) : (set s' : InPlace σ PUnit).made s = (.ok ⟨⟩, s') := rfl

@[simp] theorem made_modify (f : σ → σ) (s : σ) :
    (modify f : InPlace σ PUnit).made s = (.ok ⟨⟩, f s) := rfl

@[simp] theorem made_bind (call : InPlace σ α) (next : α → InPlace σ β) (s : σ) :
    (call >>= next).made s = match call.made s with
      | (.ok a, s') => (next a).made s'
      | (.error fault, s') => (.error fault, s') := by
  unfold made ExceptT.run StateT.run Id.run
  simp only [bind, ExceptT.bind, ExceptT.mk, StateT.bind]
  cases call s with
  | mk answer s' => cases answer <;> rfl

@[simp] theorem made_map (f : α → β) (call : InPlace σ α) (s : σ) :
    (f <$> call).made s = match call.made s with
      | (.ok a, s') => (.ok (f a), s')
      | (.error fault, s') => (.error fault, s') := by
  unfold made ExceptT.run StateT.run Id.run
  simp only [Functor.map, ExceptT.map, ExceptT.mk, bind, StateT.bind]
  cases call s with
  | mk answer s' => cases answer <;> rfl

end InPlace

namespace Layout

/-! ## Calls on a layout -/

def registerInPlace (name : String) (type : StorageType) : InPlace Layout Nat := do
  let l ← get
  match l.find? name with
  | some id => return id
  | none =>
    if l.finalized then throw (.layoutFinalized name)
    let id := (UInt32.ofNat l.dimensions.length).toNat
    let d : Dimension := ⟨id, name, type, l.pointSize⟩
    modify fun l => { l with dimensions := l.dimensions ++ [d] }
    modify fun l => { l with pointSize := l.pointSize + type.size }
    return id

inductive Call where
  | register (name : String) (type : StorageType)
  | finalize
  deriving DecidableEq, Repr

namespace Call

/-- The name that a call is about. -/
def name? : Call → Option String
  | register name _ => some name
  | finalize => none

def run : Call → InPlace Layout (Option Nat)
  | register name type => do return some (← registerInPlace name type)
  | finalize => do
    modify Layout.finalize
    return none

end Call

/-- The answer of a call, and the layout it leaves. -/
def perform (l : Layout) (call : Call) : Except Fault (Option Nat) × Layout := call.run.made l

/-- The layout that a list of calls leaves. -/
def after (l : Layout) : List Call → Layout
  | [] => l
  | call :: calls => (l.perform call).2.after calls

/-! ## Calls on a buffer -/

/-- Replaces a value of a point by one of the same size. -/
def write (l : Layout) (id index : Nat) (value : List UInt8) : InPlace (List UInt8) Unit := do
  let data ← get
  let (start, size) ← PointTable.fieldRange ⟨l, data⟩ id index
  if value.length ≠ size then throw (.fieldSize size value.length)
  set (PointTable.overwrite data start value)

def grow (l : Layout) : InPlace (List UInt8) Nat := do
  let data ← get
  PointTable.addPoint ⟨l, data⟩

end Layout

end PointTiles
