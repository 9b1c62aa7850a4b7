import PointTiles.Dataset
import PointTiles.Proofs.Page.Reading
import PointTiles.Proofs.Places

/-! # Opening a dataset

A document is no dataset for two reasons only, and of these the first counts. Whatever its other
members are, they are read as far as they can be.

* `Json.GivesBox`: the bounds that are right. `Box.ofJson?_eq_some_iff`: they are what is read.
* `DataType.name`: how an encoding is named.
* `Json.Tells`: a word that stands there, or else zero. `Json.Lists`: a schema all of whose entries
  can be read, each by itself.
* `Dataset.ReadFrom`: what a dataset says, by the document alone.
* `Dataset.opening`: when a document is a dataset, what is wrong with it otherwise, and what it says.
-/

namespace PointTiles
set_option autoImplicit false

namespace Json

/-- The value is an array of six numbers, the lower corner and the upper corner of the box. On no axis
is the lower one, as a double, greater. -/
def GivesBox (json : Json) (b : Box Float) : Prop :=
  ∃ lo hi : Vec Number,
    json = .array [.number lo.x, .number lo.y, .number lo.z,
      .number hi.x, .number hi.y, .number hi.z] ∧
    b = Box.ofCorners (lo.map Number.toFloat) (hi.map Number.toFloat) ∧
    ∀ axis, (b.on axis).lo ≤ (b.on axis).hi

/-- The value is the word, or it is no word at all and the word is zero. -/
def Tells (json : Json) (n : UInt64) : Prop :=
  json = .number (.int n.toNat) ∨ (∀ w : UInt64, json ≠ .number (.int w.toNat)) ∧ n = 0

/-- The value is an array of schema entries, each of which can be read. -/
def Lists (json : Json) (entries : List SchemaEntry) : Prop :=
  ∃ items, json = .array items ∧
    List.Forall₂ (fun item e => SchemaEntry.ofJson? item = some e) items entries

theorem float?_eq_some_iff {json : Json} {x : Float} :
    json.float? = some x ↔ ∃ n, json = .number n ∧ n.toFloat = x := by
  cases json <;> simp [float?]

theorem tells_natural? (json : Json) : json.Tells (json.natural?.getD 0) := by
  cases h : json.natural? with
  | none =>
    refine .inr ⟨fun w hw => ?_, rfl⟩
    rw [natural?_eq_some_iff.2 hw] at h
    cases h
  | some n => exact .inl (natural?_eq_some_iff.1 h)

theorem schemaOfJson_eq (json : Json) :
    json.Lists (schemaOfJson json) ∨
      (∀ entries, ¬ json.Lists entries) ∧ schemaOfJson json = [] := by
  by_cases h : ∃ entries, json.Lists entries
  · obtain ⟨entries, items, rfl, hitems⟩ := h
    have hread := Places.mapM_eq_some_iff.2 hitems
    refine .inl ⟨items, rfl, ?_⟩
    rwa [schemaOfJson, hread]
  · refine .inr ⟨fun entries hentries => h ⟨entries, hentries⟩, ?_⟩
    rw [schemaOfJson.eq_def]
    split
    next items =>
      cases hread : items.mapM SchemaEntry.ofJson? with
      | none => rfl
      | some entries => exact absurd ⟨entries, items, rfl, Places.mapM_eq_some_iff.1 hread⟩ h
    next => rfl

end Json

/-! ## Bounds -/

namespace Box

theorem ordered_iff_le {b : Box Float} :
    b.ordered = true ↔ ∀ axis, (b.on axis).lo ≤ (b.on axis).hi := by
  rw [ordered, Vec.all_eq_true]
  exact forall_congr' fun axis => decide_eq_true_iff

theorem ofList?_eq_some_iff {components : List Float} {b : Box Float} :
    ofList? components = some b ↔ components = b.toList := by
  constructor
  · intro h
    rw [ofList?.eq_def] at h
    split at h
    · obtain rfl := Option.some.inj h
      rfl
    · cases h
  · rintro rfl
    rfl

theorem ofJson?_array_eq_some_iff {items : List Json} {b : Box Float} :
    ofJson? (.array items) = some b ↔
      items.mapM Json.float? = some b.toList ∧ b.ordered = true := by
  simp only [ofJson?, Option.bind_eq_bind, Option.bind_eq_some_iff, ofList?_eq_some_iff]
  constructor
  · rintro ⟨components, hitems, box, rfl, hbox⟩
    obtain ⟨hordered, hsame⟩ := Option.ite_none_right_eq_some.1 hbox
    obtain rfl := Option.some.inj hsame
    exact ⟨hitems, hordered⟩
  · rintro ⟨hitems, hordered⟩
    exact ⟨_, hitems, b, rfl, if_pos hordered⟩

theorem givesBox_of_ofJson? {json : Json} {b : Box Float} (h : ofJson? json = some b) :
    json.GivesBox b := by
  obtain ⟨items, rfl⟩ : ∃ items, json = .array items := by
    cases json with
    | array items => exact ⟨items, rfl⟩
    | _ => cases h
  obtain ⟨hitems, hordered⟩ := ofJson?_array_eq_some_iff.1 h
  rw [Places.mapM_eq_some_iff] at hitems
  simp only [toList, List.forall₂_cons_right_iff, List.forall₂_nil_right_iff,
    Json.float?_eq_some_iff] at hitems
  obtain ⟨_, _, ⟨x, rfl, hx⟩, ⟨_, _, ⟨y, rfl, hy⟩, ⟨_, _, ⟨z, rfl, hz⟩, ⟨_, _, ⟨x', rfl, hx'⟩,
    ⟨_, _, ⟨y', rfl, hy'⟩, ⟨_, _, ⟨z', rfl, hz'⟩, rfl, rfl⟩, rfl⟩, rfl⟩, rfl⟩, rfl⟩, rfl⟩ := hitems
  refine ⟨⟨x, y, z⟩, ⟨x', y', z'⟩, rfl, ?_, ordered_iff_le.1 hordered⟩
  change b = ⟨⟨x.toFloat, x'.toFloat⟩, ⟨y.toFloat, y'.toFloat⟩, ⟨z.toFloat, z'.toFloat⟩⟩
  rw [hx, hy, hz, hx', hy', hz']

theorem ofJson?_eq_some_iff {json : Json} {b : Box Float} :
    ofJson? json = some b ↔ json.GivesBox b := by
  constructor
  · exact givesBox_of_ofJson?
  · rintro ⟨lo, hi, rfl, rfl, hordered⟩
    exact ofJson?_array_eq_some_iff.2 ⟨rfl, ordered_iff_le.2 hordered⟩

theorem ofJson_eq_ok_iff {json : Json} {b : Box Float} :
    ofJson json = .ok b ↔ json.GivesBox b := by
  rw [← ofJson?_eq_some_iff, ofJson]
  cases ofJson? json <;> simp

theorem ofJson_eq_error_iff {json : Json} {fault : Fault} :
    ofJson json = .error fault ↔ (∀ b, ¬ json.GivesBox b) ∧ fault = .invalidBounds json := by
  simp only [← ofJson?_eq_some_iff, ofJson]
  cases ofJson? json <;> simp [eq_comm]

end Box

/-! ## Encodings -/

namespace DataType

def name : DataType → String
  | .laszip => "laszip"
  | .binary => "binary"

theorem ofName_name (type : DataType) : ofName type.name = .ok type := by
  cases type <;> rfl

theorem ofName_eq_ok_iff {text : String} {type : DataType} :
    ofName text = .ok type ↔ text = type.name := by
  constructor
  · intro h
    rw [ofName] at h
    split_ifs at h with hlaszip hbinary
    · obtain rfl := Except.ok.inj h
      exact hlaszip
    · obtain rfl := Except.ok.inj h
      exact hbinary
  · rintro rfl
    exact ofName_name type

theorem ofName_eq_error_iff {text : String} {fault : Fault} :
    ofName text = .error fault ↔
      (∀ type : DataType, text ≠ type.name) ∧ fault = .unrecognizedDataType text := by
  constructor
  · intro h
    refine ⟨fun type htext => ?_, ?_⟩
    · rw [htext, ofName_name] at h
      cases h
    · rw [ofName] at h
      split_ifs at h
      exact (Except.error.inj h).symm
  · rintro ⟨htext, rfl⟩
    have hlaszip : text ≠ "laszip" := htext .laszip
    have hbinary : text ≠ "binary" := htext .binary
    rw [ofName, if_neg hlaszip, if_neg hbinary]

/-- What is no text counts as the empty one, and no encoding is named so. -/
theorem text_eq_name_iff {json : Json} {type : DataType} :
    json.text?.getD "" = type.name ↔ json = .string type.name := by
  cases json <;> cases type <;> simp [Json.text?, name]

end DataType

/-! ## Documents -/

namespace Dataset

variable {document : Json} {d : Dataset} {fault : Fault}

/-- The dataset says what the members of the document say. A count that is no word is zero, and a
schema that cannot be read to its end is empty. -/
structure ReadFrom (document : Json) (d : Dataset) : Prop where
  bounds : (document.member "bounds").GivesBox d.bounds
  dataType : document.member "dataType" = .string d.dataType.name
  points : (document.member "points").Tells d.points
  span : (document.member "span").Tells d.span
  sources : (document.member "sources").Tells d.sources
  schema : (document.member "schema").Lists d.schema ∨
    (∀ entries, ¬ (document.member "schema").Lists entries) ∧ d.schema = []
  rootText : d.rootKey.address.text = "0-0-0-0"
  rootBounds : d.rootKey.bounds = d.bounds

theorem text_root : Address.root.text = "0-0-0-0" := by
  decide

theorem readFrom_of_ofJson (h : ofJson document = .ok d) : d.ReadFrom document := by
  obtain ⟨b, hbox, h⟩ := Json.bind_eq_ok_iff.1 h
  obtain ⟨type, htype, h⟩ := Json.bind_eq_ok_iff.1 h
  obtain rfl := Except.ok.inj h
  exact
    { bounds := Box.ofJson_eq_ok_iff.1 hbox
      dataType := DataType.text_eq_name_iff.1 (DataType.ofName_eq_ok_iff.1 htype)
      points := Json.tells_natural? _
      span := Json.tells_natural? _
      sources := Json.tells_natural? _
      schema := Json.schemaOfJson_eq _
      rootText := text_root
      rootBounds := rfl }

theorem exists_ofJson_iff :
    (∃ d, ofJson document = .ok d) ↔
      (∃ b, (document.member "bounds").GivesBox b) ∧
      ∃ type : DataType, document.member "dataType" = .string type.name := by
  constructor
  · rintro ⟨d, h⟩
    have hread := readFrom_of_ofJson h
    exact ⟨⟨_, hread.bounds⟩, _, hread.dataType⟩
  · rintro ⟨⟨b, hbox⟩, type, htype⟩
    rw [ofJson, Box.ofJson_eq_ok_iff.2 hbox,
      DataType.ofName_eq_ok_iff.2 (DataType.text_eq_name_iff.2 htype)]
    exact ⟨_, rfl⟩

theorem ofJson_of_no_box (hbox : ∀ b, ¬ (document.member "bounds").GivesBox b) :
    ofJson document = .error (.invalidBounds (document.member "bounds")) := by
  rw [ofJson, Box.ofJson_eq_error_iff.2 ⟨hbox, rfl⟩]
  rfl

theorem ofJson_of_no_encoding {b : Box Float} (hbox : (document.member "bounds").GivesBox b)
    (htype : ∀ type : DataType, document.member "dataType" ≠ .string type.name) :
    ofJson document =
      .error (.unrecognizedDataType ((document.member "dataType").text?.getD "")) := by
  have hname : ∀ type : DataType, (document.member "dataType").text?.getD "" ≠ type.name :=
    fun type h => htype type (DataType.text_eq_name_iff.1 h)
  rw [ofJson, Box.ofJson_eq_ok_iff.2 hbox, DataType.ofName_eq_error_iff.2 ⟨hname, rfl⟩]
  rfl

theorem ofJson_eq_error_iff :
    ofJson document = .error fault ↔
      (∀ b, ¬ (document.member "bounds").GivesBox b) ∧
        fault = .invalidBounds (document.member "bounds") ∨
      (∃ b, (document.member "bounds").GivesBox b) ∧
        (∀ type : DataType, document.member "dataType" ≠ .string type.name) ∧
        fault = .unrecognizedDataType ((document.member "dataType").text?.getD "") := by
  constructor
  · intro h
    by_cases hbox : ∃ b, (document.member "bounds").GivesBox b
    · by_cases htype : ∃ type : DataType, document.member "dataType" = .string type.name
      · obtain ⟨d, hd⟩ := exists_ofJson_iff.2 ⟨hbox, htype⟩
        rw [h] at hd
        cases hd
      · rw [not_exists] at htype
        obtain ⟨b, hb⟩ := hbox
        rw [ofJson_of_no_encoding hb htype] at h
        exact .inr ⟨⟨b, hb⟩, htype, (Except.error.inj h).symm⟩
    · rw [not_exists] at hbox
      rw [ofJson_of_no_box hbox] at h
      exact .inl ⟨hbox, (Except.error.inj h).symm⟩
  · rintro (⟨hbox, rfl⟩ | ⟨⟨b, hbox⟩, htype, rfl⟩)
    · exact ofJson_of_no_box hbox
    · exact ofJson_of_no_encoding hbox htype

/-- A document is a dataset if its bounds are six numbers in order and its encoding is known, and then
the dataset says what the other members say, as far as they say anything. Otherwise the bounds are at
fault, and the encoding only where the bounds are right. -/
theorem opening (document : Json) :
    (∀ fault, ofJson document = .error fault ↔
      (∀ b, ¬ (document.member "bounds").GivesBox b) ∧
        fault = .invalidBounds (document.member "bounds") ∨
      (∃ b, (document.member "bounds").GivesBox b) ∧
        (∀ type : DataType, document.member "dataType" ≠ .string type.name) ∧
        fault = .unrecognizedDataType ((document.member "dataType").text?.getD "")) ∧
    ((∃ d, ofJson document = .ok d) ↔
      (∃ b, (document.member "bounds").GivesBox b) ∧
      ∃ type : DataType, document.member "dataType" = .string type.name) ∧
    ∀ d, ofJson document = .ok d → d.ReadFrom document :=
  ⟨fun _ => ofJson_eq_error_iff, exists_ofJson_iff, fun _ => readFrom_of_ofJson⟩

/-- A dataset of a flat box. The point count is negative and the span is a text, so that both are
zero; the second entry of the schema has a text for its size, and so the first one is not listed
either. With a seventh number, the bounds are at fault, although the encoding is missing too. -/
theorem opening_of_faulty_members :
    let whole (i : Int) : Json := .number (.int i)
    let flat := [0, -2, 3, 4, 2, 3].map whole
    let first : Json := .object [("name", .string "X"), ("size", whole 4), ("type", .string "signed")]
    let second : Json := .object [("name", .string "Y"), ("size", .string "4")]
    let document : Json := .object
      [("bounds", .array flat), ("dataType", .string "laszip"), ("points", whole (-1)),
        ("schema", .array [first, second]), ("sources", whole 7), ("span", .string "128")]
    (∃ d, Dataset.ofJson document = .ok d ∧ d.ReadFrom document ∧
      d.dataType = .laszip ∧ d.points = 0 ∧ d.span = 0 ∧ d.sources = 7 ∧ d.schema = []) ∧
    Dataset.ofJson (.object [("bounds", .array (flat ++ [whole 5]))]) =
      .error (.invalidBounds (.array (flat ++ [whole 5]))) := by
  intro whole flat first second document
  refine ⟨⟨_, rfl, (opening document).2.2 _ rfl, rfl, rfl, rfl, rfl, rfl⟩,
    ((opening _).1 _).2 (.inl ⟨?_, rfl⟩)⟩
  rintro b ⟨lo, hi, hitems, -⟩
  have hcount : 7 = 6 := congrArg List.length (Json.array.inj hitems)
  exact absurd hcount (by decide)

end Dataset

end PointTiles
