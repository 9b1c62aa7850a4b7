/-! # JSON values

* `Number`: an integer, or any other number as a double.
* `Json`: a document or part of one. The members of an object are in the order of their names, by
  code point, and no name occurs twice; `Json.ofMembers` builds such an object and lets the last of
  several equal names win.
* Accessors answer `null` or `none` where a value has not the form asked for.
-/

namespace PointTiles
set_option autoImplicit false

inductive Number where
  | int (value : Int)
  | float (value : Float)

inductive Json where
  | null
  | bool (value : Bool)
  | number (value : Number)
  | string (value : String)
  | array (items : List Json)
  | object (members : List (String × Json))

instance : Inhabited Json := ⟨.null⟩

/-- The number as a double, rounded to nearest where it is not one. -/
def Number.toFloat : Number → Float
  | .int (.ofNat n) => n.toUInt64.toFloat
  | .int (.negSucc n) => -(n + 1).toUInt64.toFloat
  | .float x => x

/-- The number as a 64-bit word, if it is an integer in that range. -/
def Number.natural? : Number → Option UInt64
  | .int (.ofNat n) => if n < UInt64.size then some (UInt64.ofNat n) else none
  | _ => none

namespace Json

/-- Puts a member in the place of its name, over an earlier member of that name. -/
def insertMember (name : String) (value : Json) : List (String × Json) → List (String × Json)
  | [] => [(name, value)]
  | (n, v) :: rest =>
    if name < n then (name, value) :: (n, v) :: rest
    else if name = n then (name, value) :: rest
    else (n, v) :: insertMember name value rest

/-- The object with the given members, later ones over earlier ones. -/
def ofMembers (members : List (String × Json)) : Json :=
  .object (members.foldl (fun ms m => insertMember m.1 m.2 ms) [])

/-- Members in strictly increasing order of their names. -/
def Sorted (members : List (String × Json)) : Prop := members.Pairwise (fun a b => a.1 < b.1)

/-- The member of that name; `null` where there is none. -/
def member (json : Json) (name : String) : Json :=
  match json with
  | .object members => (members.lookup name).getD .null
  | _ => .null

def isNull : Json → Bool
  | .null => true
  | _ => false

def text? : Json → Option String
  | .string s => some s
  | _ => none

def natural? : Json → Option UInt64
  | .number n => n.natural?
  | _ => none

def float? : Json → Option Float
  | .number n => some n.toFloat
  | _ => none

end Json

end PointTiles
