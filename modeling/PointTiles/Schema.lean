import PointTiles.Json.Record
import PointTiles.Fault

/-! # Schemas

A schema lists the dimensions of a point: name, kind, size in bytes, and for scaled dimensions the
scale and offset.

* `StorageType`: how a value is stored.
* `SchemaEntry`: one dimension. Missing parts are empty, zero or absent.
* `schemaOfJson`: the entries of a document, all of them or none.
-/

namespace PointTiles
set_option autoImplicit false

/-! ## Storage types -/

inductive StorageType where
  /-- No usable type. -/
  | none
  | signed8
  | signed16
  | signed32
  | signed64
  | unsigned8
  | unsigned16
  | unsigned32
  | unsigned64
  | float
  | double
  deriving DecidableEq, Repr

namespace StorageType

def size : StorageType → Nat
  | .none => 0
  | .signed8 | .unsigned8 => 1
  | .signed16 | .unsigned16 => 2
  | .signed32 | .unsigned32 | .float => 4
  | .signed64 | .unsigned64 | .double => 8

/-- The type of a kind and a size, if there is one. -/
def ofKind (kind : String) (size : UInt64) : StorageType :=
  match kind, size.toNat with
  | "signed", 1 => .signed8
  | "signed", 2 => .signed16
  | "signed", 4 => .signed32
  | "signed", 8 => .signed64
  | "unsigned", 1 => .unsigned8
  | "unsigned", 2 => .unsigned16
  | "unsigned", 4 => .unsigned32
  | "unsigned", 8 => .unsigned64
  | "float", 4 => .float
  | "float", 8 => .double
  | _, _ => .none

/-- The type a dimension is read as: a double where it is scaled, whatever its kind and size. -/
def ofSchema (kind : String) (size : UInt64) (scaled : Bool) : StorageType :=
  if scaled then .double else ofKind kind size

end StorageType

/-! ## Schema entries -/

structure SchemaEntry where
  name : String
  kind : String
  size : UInt64
  scale : Option Float
  offset : Option Float

namespace SchemaEntry

def fields : List Json.Field :=
  [⟨"name", .text⟩, ⟨"type", .text⟩, ⟨"size", .natural⟩, ⟨"scale", .optionalNumber⟩,
    ⟨"offset", .optionalNumber⟩]

def ofRecord (r : Json.Record) : SchemaEntry where
  name := (r.text? "name").getD ""
  kind := (r.text? "type").getD ""
  size := (r.natural? "size").getD 0
  scale := r.number? "scale"
  offset := r.number? "offset"

def parse (text : String) : Except Fault SchemaEntry :=
  match Json.Record.read fields text with
  | .ok r => .ok (ofRecord r)
  | .error error => .error (.unreadable error)

def ofJson? (json : Json) : Option SchemaEntry := (Json.Record.ofJson? fields json).map ofRecord

/-- The type a value is read as. -/
def valueType (e : SchemaEntry) : StorageType := .ofSchema e.kind e.size e.scale.isSome

/-- The type a value is stored in, the scale left aside. -/
def storageType (e : SchemaEntry) : StorageType := .ofSchema e.kind e.size false

end SchemaEntry

/-- The entries of a schema; none where the value is not an array or one of them is not readable. -/
def schemaOfJson : Json → List SchemaEntry
  | .array items => (items.mapM SchemaEntry.ofJson?).getD []
  | _ => []

end PointTiles
