/-! # Values on three axes

`Vec α` holds one value for each axis. Corners and extents are vectors of coordinates, a box is a
vector of spans, a grid cell a vector of words and an octant a vector of bits; an operation that
treats the axes alike is a `map` or a `zipWith`.
-/

namespace PointTiles
set_option autoImplicit false

/-- The axes of space. -/
inductive Axis where
  | x
  | y
  | z
  deriving DecidableEq, Repr

/-- One value for each axis. -/
structure Vec (α : Type) where
  x : α
  y : α
  z : α
  deriving DecidableEq, Repr

namespace Vec

variable {α β γ : Type}

def on (v : Vec α) : Axis → α
  | .x => v.x
  | .y => v.y
  | .z => v.z

def replicate (a : α) : Vec α := ⟨a, a, a⟩

def map (f : α → β) (v : Vec α) : Vec β := ⟨f v.x, f v.y, f v.z⟩

def zipWith (f : α → β → γ) (v : Vec α) (w : Vec β) : Vec γ := ⟨f v.x w.x, f v.y w.y, f v.z w.z⟩

def all (p : α → Bool) (v : Vec α) : Bool := p v.x && p v.y && p v.z

def set (v : Vec α) (axis : Axis) (a : α) : Vec α :=
  match axis with
  | .x => { v with x := a }
  | .y => { v with y := a }
  | .z => { v with z := a }

@[ext] theorem ext_on {v w : Vec α} (h : ∀ axis, v.on axis = w.on axis) : v = w := by
  cases v
  cases w
  have hx := h .x
  have hy := h .y
  have hz := h .z
  simp_all [on]

@[simp] theorem on_map (f : α → β) (v : Vec α) (axis : Axis) :
    (v.map f).on axis = f (v.on axis) := by
  cases axis <;> rfl

@[simp] theorem on_zipWith (f : α → β → γ) (v : Vec α) (w : Vec β) (axis : Axis) :
    (zipWith f v w).on axis = f (v.on axis) (w.on axis) := by
  cases axis <;> rfl

theorem all_eq_true (p : α → Bool) (v : Vec α) : v.all p = true ↔ ∀ axis, p (v.on axis) = true := by
  constructor
  · intro h axis
    simp only [all, Bool.and_eq_true] at h
    cases axis <;> simp_all [on]
  · intro h
    have hx := h .x
    have hy := h .y
    have hz := h .z
    simp_all [all, on]

end Vec

end PointTiles
