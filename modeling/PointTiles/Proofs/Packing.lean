import PointTiles.Dataset

/-! # Layouts and packed points

What a layout built by registering says about the bytes of a point, and when the layout of a dataset
says the right thing about points packed in the order of its schema.

* `StorageType.size_ofKind`: a type that a kind and a size have takes that many bytes.
* `Layout.Packed`: dimensions are numbered by their places and lie one behind the other, and no name
  occurs twice. Every registration keeps this, `Packed.extended`.
* `Layout.Describes`: every entry of a schema has its declared bytes behind those of the entries
  before it.
* `layout_describes_iff`: a layout does so exactly when no two entries have the same name, since a
  name is registered once.
-/

namespace PointTiles
set_option autoImplicit false

-- Sums of numbers begin at the zero of the core library, whatever else is imported.
attribute [local instance (high)] Zero.ofOfNat0

/-! ## Sizes -/

namespace StorageType

theorem size_eq_zero_iff (type : StorageType) : type.size = 0 ↔ type = .none := by
  cases type <;> simp [size]

theorem size_ofKind {kind : String} {size : UInt64} (h : ofKind kind size ≠ .none) :
    (ofKind kind size).size = size.toNat := by
  unfold ofKind at h ⊢
  split at h
  all_goals first
    | contradiction
    | simp_all [StorageType.size]

end StorageType

/-- An entry with a storage type is stored in as many bytes as it declares. -/
theorem SchemaEntry.size_storageType {e : SchemaEntry} (h : e.storageType ≠ .none) :
    e.storageType.size = e.size.toNat := by
  simp only [storageType, StorageType.ofSchema] at h ⊢
  exact StorageType.size_ofKind h

namespace Layout

variable {l l' : Layout} {name : String} {type : StorageType}

/-! ## Packed layouts -/

def listed (l : Layout) : List (String × StorageType) := l.dimensions.map fun d => (d.name, d.type)

def names (l : Layout) : List String := l.dimensions.map Dimension.name

structure Packed (l : Layout) : Prop where
  id : ∀ (k : Nat) d, l.dimensions[k]? = some d → d.id = k
  offset : ∀ (k : Nat) d, l.dimensions[k]? = some d →
    d.offset = ((l.dimensions.take k).map Dimension.size).sum
  total : l.pointSize = (l.dimensions.map Dimension.size).sum
  distinct : l.names.Nodup

theorem packed_empty : empty.Packed := by
  constructor <;> simp [empty, names]

@[simp] theorem listed_append : (l.append name type).listed = l.listed ++ [(name, type)] := by
  simp [listed, append]

@[simp] theorem names_append : (l.append name type).names = l.names ++ [name] := by
  simp [names, append]

theorem find?_eq_none_iff : l.find? name = none ↔ name ∉ l.names := by
  simp [find?, names]

theorem map_size_dimensions (l : Layout) :
    l.dimensions.map Dimension.size = l.listed.map fun entry => entry.2.size := by
  simp [listed, Dimension.size]

theorem getElem?_concat_cases {β : Type} {list : List β} {last b : β} {k : Nat}
    (h : (list ++ [last])[k]? = some b) : list[k]? = some b ∨ (k = list.length ∧ b = last) := by
  rw [List.getElem?_append] at h
  split at h
  · exact .inl h
  · obtain ⟨hk, hb⟩ := List.getElem?_eq_some_iff.1 h
    rw [List.length_singleton] at hk
    exact .inr ⟨by omega, by simpa using hb.symm⟩

/-- Dimensions that lie one behind the other, the first one at the start of a point. -/
def Spaced (dimensions : List Dimension) : Prop :=
  ∀ (k : Nat) d, dimensions[k]? = some d →
    d.offset = ((dimensions.take k).map Dimension.size).sum

theorem Spaced.concat {dimensions : List Dimension} {last : Dimension} (h : Spaced dimensions)
    (hlast : last.offset = (dimensions.map Dimension.size).sum) : Spaced (dimensions ++ [last]) := by
  intro k d hd
  rcases getElem?_concat_cases hd with hold | ⟨rfl, rfl⟩
  · have hk : k ≤ dimensions.length := Nat.le_of_lt (List.getElem?_eq_some_iff.1 hold).1
    rw [List.take_append_of_le_length hk]
    exact h k d hold
  · rw [List.take_left' rfl]
    exact hlast

theorem Packed.append (hl : l.Packed) (hnew : name ∉ l.names) : (l.append name type).Packed := by
  refine ⟨fun k d hd => ?_, Spaced.concat hl.offset hl.total, ?_, ?_⟩
  · rcases getElem?_concat_cases hd with hold | ⟨rfl, rfl⟩
    · exact hl.id k d hold
    · rfl
  · simp [Layout.append, hl.total, Dimension.size]
  · rw [names_append]
    exact List.nodup_append.2 ⟨hl.distinct, List.pairwise_singleton _ _, by grind⟩

/-! ## Registering -/

theorem register_of_mem (hname : name ∈ l.names) : ∃ id, l.register name type = .ok (id, l) := by
  cases hfind : l.find? name with
  | none => exact absurd hname (find?_eq_none_iff.1 hfind)
  | some id => exact ⟨id, by rw [register, hfind]⟩

theorem register_of_not_mem (hname : name ∉ l.names) (hopen : l.finalized = false) :
    l.register name type = .ok (l.dimensions.length, l.append name type) := by
  rw [register, find?_eq_none_iff.2 hname]
  simp [hopen]

/-- The layout after registering a dimension: a known name changes nothing. -/
def extended (l : Layout) (name : String) (type : StorageType) : Layout :=
  if name ∈ l.names then l else l.append name type

theorem exists_register (name : String) (type : StorageType) (hopen : l.finalized = false) :
    ∃ id, l.register name type = .ok (id, l.extended name type) := by
  by_cases hname : name ∈ l.names
  · rw [extended, if_pos hname]
    exact register_of_mem hname
  · rw [extended, if_neg hname]
    exact ⟨_, register_of_not_mem hname hopen⟩

@[simp] theorem finalized_extended : (l.extended name type).finalized = l.finalized := by
  rw [extended]
  split <;> rfl

theorem Packed.extended (hl : l.Packed) : (l.extended name type).Packed := by
  rw [Layout.extended]
  split
  · exact hl
  · rename_i hname
    exact hl.append hname

/-! ## Layouts of schemas -/

/-- The layout describes points that are packed in the order of the schema: every entry takes its
declared bytes, behind those of the entries before it. -/
structure Describes (l : Layout) (schema : List SchemaEntry) : Prop where
  count : l.dimensions.length = schema.length
  placed : ∀ (k : Nat) e, schema[k]? = some e → ∃ d, l.dimensions[k]? = some d ∧
    d.name = e.name ∧ d.type = e.storageType ∧ d.size = e.size.toNat ∧
    d.offset = ((schema.take k).map (fun e => e.size.toNat)).sum
  total : l.pointSize = (schema.map (fun e => e.size.toNat)).sum

def listing (e : SchemaEntry) : String × StorageType := (e.name, e.storageType)

theorem registerAll_cons {e : SchemaEntry} {entries : List SchemaEntry}
    (htyped : e.storageType ≠ .none) (hopen : l.finalized = false) :
    Dataset.registerAll (e :: entries) l =
      Dataset.registerAll entries (l.extended e.name e.storageType) := by
  obtain ⟨id, hregister⟩ := exists_register e.name e.storageType hopen
  rw [Dataset.registerAll, if_neg (mt (StorageType.size_eq_zero_iff _).1 htyped), hregister]
  rfl

theorem exists_registerAll {entries : List SchemaEntry}
    (htyped : ∀ e ∈ entries, e.storageType ≠ .none) (hl : l.Packed) (hopen : l.finalized = false) :
    ∃ l', Dataset.registerAll entries l = .ok l' ∧ l'.Packed := by
  induction entries generalizing l with
  | nil => exact ⟨l, rfl, hl⟩
  | cons e entries ih =>
    rw [List.forall_mem_cons] at htyped
    rw [registerAll_cons htyped.1 hopen]
    exact ih htyped.2 hl.extended (by rw [finalized_extended, hopen])

/-- Names that are all new are all registered, in their order. -/
theorem listed_registerAll {entries : List SchemaEntry}
    (htyped : ∀ e ∈ entries, e.storageType ≠ .none) (hopen : l.finalized = false)
    (hdistinct : (l.names ++ entries.map SchemaEntry.name).Nodup)
    (hregister : Dataset.registerAll entries l = .ok l') :
    l'.listed = l.listed ++ entries.map listing := by
  induction entries generalizing l with
  | nil =>
    obtain rfl : l = l' := by simpa [Dataset.registerAll] using hregister
    simp
  | cons e entries ih =>
    rw [List.forall_mem_cons] at htyped
    have hnew : e.name ∉ l.names := by
      intro hold
      exact (List.nodup_append.1 hdistinct).2.2 _ hold _ (List.mem_cons_self ..) rfl
    have hnext : l.extended e.name e.storageType = l.append e.name e.storageType := if_neg hnew
    rw [registerAll_cons htyped.1 hopen, hnext] at hregister
    have hdistinct' :
        ((l.append e.name e.storageType).names ++ entries.map SchemaEntry.name).Nodup := by
      simpa using hdistinct
    have hopen' : (l.append e.name e.storageType).finalized = false := hopen
    rw [ih htyped.2 hopen' hdistinct' hregister]
    simp [listing]

theorem map_size_listing {schema : List SchemaEntry} (htyped : ∀ e ∈ schema, e.storageType ≠ .none) :
    (schema.map listing).map (fun entry => entry.2.size) = schema.map (fun e => e.size.toNat) := by
  rw [List.map_map]
  exact List.map_congr_left (fun e he => SchemaEntry.size_storageType (htyped e he))

theorem Packed.describes {schema : List SchemaEntry} (hl : l.Packed)
    (htyped : ∀ e ∈ schema, e.storageType ≠ .none) (hlisted : l.listed = schema.map listing) :
    l.Describes schema := by
  have hsizes : ∀ k : Nat, ((l.dimensions.take k).map Dimension.size).sum =
      ((schema.take k).map (fun e => e.size.toNat)).sum := by
    intro k
    rw [List.map_take, map_size_dimensions, hlisted, map_size_listing htyped, ← List.map_take]
  refine ⟨by simpa [listed] using congrArg List.length hlisted, fun k e he => ?_, ?_⟩
  · have hplace : l.listed[k]? = some (listing e) := by rw [hlisted, List.getElem?_map, he]; rfl
    obtain ⟨d, hd, hentry⟩ : ∃ d, l.dimensions[k]? = some d ∧ (d.name, d.type) = listing e := by
      simpa [listed] using hplace
    obtain ⟨hname, htype⟩ := Prod.mk.inj hentry
    refine ⟨d, hd, hname, htype, ?_, ?_⟩
    · rw [Dimension.size, htype]
      exact SchemaEntry.size_storageType (htyped e (List.mem_of_getElem? he))
    · rw [hl.offset k d hd, hsizes]
  · rw [hl.total, map_size_dimensions, hlisted, map_size_listing htyped]

theorem Describes.names_eq {schema : List SchemaEntry} (h : l.Describes schema) :
    l.names = schema.map SchemaEntry.name := by
  refine List.ext_getElem? (fun k => ?_)
  rw [names, List.getElem?_map, List.getElem?_map]
  cases hentry : schema[k]? with
  | none =>
    rw [List.getElem?_eq_none_iff, ← h.count] at hentry
    rw [List.getElem?_eq_none_iff.2 hentry]
    rfl
  | some e =>
    obtain ⟨d, hd, hname, -⟩ := h.placed k e hentry
    rw [hd, Option.map_some, hname]
    rfl

end Layout

/-! ## Layouts of datasets -/

/-- Where every entry of the schema has a storage type, a dataset has a layout, and the layout
describes points packed in the order of the schema exactly when no two entries have the same
name. -/
theorem Dataset.layout_describes_iff {d : Dataset} (htyped : ∀ e ∈ d.schema, e.storageType ≠ .none) :
    ∃ l, d.layout = .ok l ∧ (l.Describes d.schema ↔ (d.schema.map SchemaEntry.name).Nodup) := by
  obtain ⟨l, hlayout, hl⟩ := Layout.exists_registerAll htyped Layout.packed_empty rfl
  refine ⟨l, hlayout, fun h => ?_, fun hdistinct => ?_⟩
  · rw [← h.names_eq]
    exact hl.distinct
  · have hopen : Layout.empty.finalized = false := rfl
    exact hl.describes htyped (Layout.listed_registerAll htyped hopen hdistinct hlayout)

/-! ### Documents that name dimensions -/

def signedEntry (name : String) : SchemaEntry := ⟨name, "signed", 4, none, none⟩

def documentOfEntry (name : String) : Json :=
  .object [("name", .string name), ("size", .number (.int 4)), ("type", .string "signed")]

/-- A document whose schema has a signed value of four bytes for each of the names. -/
def documentNaming (names : List String) : Json :=
  .object
    [("bounds", .array ([0, 0, 0, 1, 1, 1].map (fun n => .number (.int n)))),
      ("dataType", .string "binary"),
      ("schema", .array (names.map documentOfEntry))]

theorem mapM_documentOfEntry (names : List String) :
    (names.map documentOfEntry).mapM SchemaEntry.ofJson? = some (names.map signedEntry) := by
  induction names with
  | nil => rfl
  | cons name names ih =>
    have hentry : SchemaEntry.ofJson? (documentOfEntry name) = some (signedEntry name) := rfl
    rw [List.map_cons, List.mapM_cons, hentry, ih]
    rfl

theorem ofJson_documentNaming (names : List String) :
    ∃ d, Dataset.ofJson (documentNaming names) = .ok d ∧ d.schema = names.map signedEntry := by
  refine ⟨_, rfl, ?_⟩
  change ((names.map documentOfEntry).mapM SchemaEntry.ofJson?).getD [] = _
  rw [mapM_documentOfEntry, Option.getD_some]

theorem storageType_signedEntry (name : String) : (signedEntry name).storageType = .signed32 := rfl

/-- Three names are three dimensions of four bytes. -/
theorem Dataset.layout_describes_three :
    ∃ d l, Dataset.ofJson (documentNaming ["X", "Y", "Z"]) = .ok d ∧
      (∀ e ∈ d.schema, e.storageType ≠ .none) ∧ d.layout = .ok l ∧ l.Describes d.schema := by
  obtain ⟨d, hopen, hschema⟩ := ofJson_documentNaming ["X", "Y", "Z"]
  have htyped : ∀ e ∈ d.schema, e.storageType ≠ .none := by
    rw [hschema]
    simp [storageType_signedEntry]
  obtain ⟨l, hlayout, hiff⟩ := Dataset.layout_describes_iff htyped
  refine ⟨d, l, hopen, htyped, hlayout, hiff.2 ?_⟩
  rw [hschema]
  decide

/-- A name that occurs twice is given four bytes once, and what comes behind it is read four bytes
too early: the layout has two dimensions for three entries, and a point of eight bytes for one of
twelve. -/
theorem Dataset.layout_of_repeated_name :
    ∃ d l, Dataset.ofJson (documentNaming ["X", "X", "Y"]) = .ok d ∧
      (∀ e ∈ d.schema, e.storageType ≠ .none) ∧ d.layout = .ok l ∧
      d.schema.length = 3 ∧ l.dimensions = [⟨0, "X", .signed32, 0⟩, ⟨1, "Y", .signed32, 4⟩] ∧
      l.pointSize = 8 ∧ (d.schema.map (fun e => e.size.toNat)).sum = 12 ∧ ¬ l.Describes d.schema := by
  obtain ⟨d, hopen, hschema⟩ := ofJson_documentNaming ["X", "X", "Y"]
  have htyped : ∀ e ∈ d.schema, e.storageType ≠ .none := by
    rw [hschema]
    simp [storageType_signedEntry]
  have hlayout : d.layout =
      .ok ⟨[⟨0, "X", .signed32, 0⟩, ⟨1, "Y", .signed32, 4⟩], 8, false⟩ := by
    rw [Dataset.layout, hschema]
    rfl
  refine ⟨d, _, hopen, htyped, hlayout, ?_, rfl, rfl, ?_, fun h => ?_⟩
  · rw [hschema]
    rfl
  · rw [hschema]
    rfl
  · have hcount := h.count
    rw [hschema] at hcount
    exact absurd hcount (by decide)

end PointTiles
