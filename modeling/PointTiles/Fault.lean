import PointTiles.Address.Text
import PointTiles.Json.Printer
import PointTiles.Json.Scan

/-! # Faults

Everything that can go wrong, by cause. `Fault.message` has the wording of each, and `Fault.origins`
the wordings of what lies under it.
-/

namespace PointTiles
set_option autoImplicit false

/-- Why an operation did not succeed. -/
inductive Fault where
  | malformedKey (text : String)
  /-- The address is deeper than any grid a cell can index. -/
  | keyTooDeep (address : Address)
  | keyOutsideGrid (address : Address)
  | noBoxComponent (index : Nat)
  | noCellCoordinate (index : Nat)
  /-- The value is not six numbers that make a box. -/
  | invalidBounds (value : Json)
  | unrecognizedDataType (name : String)
  | stoppedPool
  | unreadable (error : Json.ReadError)
  | pageNotObject (value : Json)
  /-- A page entry is a count or minus one. -/
  | invalidEntry (name : String) (value : Json)
  | unknownDimension (id : Nat)
  | unknownDimensionType (name kind : String) (size : UInt64)
  /-- A finalized layout takes no new name. -/
  | layoutFinalized (name : String)
  | pointOutOfRange (index capacity : Nat)
  | fieldSize (expected actual : Nat)
  | appendUnsupported
  | taskFailures (messages : List String)
  | additionOverflow
  | invertedBox

namespace Fault

def readErrorName : Json.ReadError → String
  | .truncated => "eof"
  | .malformed => "syntax"
  | .mismatched => "data"

def readErrorText (error : Json.ReadError) : String := "<json:" ++ readErrorName error ++ ">"

def message : Fault → String
  | malformedKey text => "Invalid EPT key: " ++ text
  | keyTooDeep a => "Invalid EPT key: " ++ a.text ++ " is deeper than " ++ toString Address.maxDepth
  | keyOutsideGrid a =>
    "Invalid EPT key: " ++ a.text ++ " lies outside the depth " ++ toString a.depth.toNat ++ " grid"
  | noBoxComponent index => "Invalid bounds index: " ++ toString index
  | noCellCoordinate index => "Invalid Key::id_at index: " ++ toString index
  | invalidBounds value => "Invalid bounds specification: " ++ value.render
  | unrecognizedDataType name => "Unrecognized EPT dataType: " ++ name
  | stoppedPool => "Attempted to add a task to a stopped Pool"
  | unreadable error => "Error during parsing: " ++ readErrorText error
  | pageNotObject value => "Invalid hierarchy entry: expected an object, got " ++ value.render
  | invalidEntry name value => "Invalid hierarchy entry: " ++ name ++ ": " ++ value.render
  | unknownDimension id => "Dimension DimId(" ++ toString id ++ ") is not registered in the layout"
  | unknownDimensionType name kind size =>
    "Dimension " ++ name ++ " has no type for " ++ kind ++ "/" ++ toString size.toNat
  | layoutFinalized name => "Cannot register dimension " ++ name ++ ": layout is finalized"
  | pointOutOfRange index capacity =>
    "Point " ++ toString index ++ " is out of range for a table of " ++ toString capacity ++
      " points"
  | fieldSize expected actual =>
    "Field value is " ++ toString actual ++ " bytes, dimension holds " ++ toString expected
  | appendUnsupported => "Cannot add points to ShallowPointTable"
  | taskFailures messages =>
    toString messages.length ++ " task(s) failed: " ++ "; ".intercalate messages
  | additionOverflow => "attempt to add with overflow"
  | invertedBox => "AABB min must be <= max on all axes"

/-- The wordings of what a fault comes from. Only an unreadable document has a cause of its own. -/
def origins : Fault → List String
  | unreadable error => [readErrorText error]
  | _ => []

end Fault

end PointTiles
