import PointTiles.Box.Document
import PointTiles.Key
import PointTiles.Layout

/-! # Datasets

A dataset is described by a document. Two of its members have to be right, the bounds and then the
encoding; all others are read leniently.

* `DataType`: the encodings of point data.
* `Dataset.ofJson`: opens a dataset.
* `Dataset.layout`: the layout of its points, one dimension for each name of the schema.
-/

namespace PointTiles
set_option autoImplicit false

inductive DataType where
  | laszip
  | binary
  deriving DecidableEq, Repr

def DataType.ofName (name : String) : Except Fault DataType :=
  if name = "laszip" then .ok .laszip
  else if name = "binary" then .ok .binary
  else .error (.unrecognizedDataType name)

structure Dataset where
  document : Json
  bounds : Box Float
  points : UInt64
  span : UInt64
  dataType : DataType
  spatialReference : String
  schema : List SchemaEntry

namespace Dataset

/-! ## Opening -/

/-- A value as text: a string as it is, `null` as nothing, any other value in JSON. -/
def plainText : Json → String
  | .string s => s
  | .null => ""
  | json => json.render

/-- The spatial reference: the description in full if there is one, otherwise the codes of the
horizontal and the vertical reference. -/
def referenceText (srs : Json) : String :=
  let full := plainText (srs.member "wkt")
  let authority := srs.member "authority"
  let horizontal := srs.member "horizontal"
  let vertical := srs.member "vertical"
  if full ≠ "" then full
  else
    (if authority.isNull || horizontal.isNull then ""
      else plainText authority ++ ":" ++ plainText horizontal) ++
    (if vertical.isNull then "" else "+" ++ plainText vertical)

def ofJson (document : Json) : Except Fault Dataset := do
  let bounds ← Box.ofJson (document.member "bounds")
  let dataType ← DataType.ofName (((document.member "dataType").text?).getD "")
  .ok
    { document
      bounds
      points := ((document.member "points").natural?).getD 0
      span := ((document.member "span").natural?).getD 0
      dataType
      spatialReference := referenceText (document.member "srs")
      schema := schemaOfJson (document.member "schema") }

def parse (text : String) : Except Fault Dataset :=
  match Json.parse text with
  | .ok document => ofJson document
  | .error error => .error (.unreadable error)

/-! ## What a dataset tells -/

/-- The number of source files; zero where they are not listed. -/
def sources (d : Dataset) : UInt64 := ((d.document.member "sources").natural?).getD 0

/-- The first schema entry of a name. -/
def entry? (d : Dataset) (name : String) : Option SchemaEntry :=
  d.schema.find? (fun e => e.name = name)

def rootKey (d : Dataset) : Key Float := Key.root d.bounds

/-- Registers schema entries in order. Each has to have a storage type. -/
def registerAll : List SchemaEntry → Layout → Except Fault Layout
  | [], layout => .ok layout
  | e :: entries, layout =>
    if e.storageType.size = 0 then .error (.unknownDimensionType e.name e.kind e.size)
    else do
      let (_, layout) ← layout.register e.name e.storageType
      registerAll entries layout

/-- The layout of a point as it is stored, open to further dimensions. -/
def layout (d : Dataset) : Except Fault Layout := registerAll d.schema .empty

end Dataset

end PointTiles
