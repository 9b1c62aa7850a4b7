import PointTiles.Proofs.Registration

/-! # First entries

A schema may have several entries of one name. The first of them is the one that a dataset answers for
the name, and the one that decides what the name is in the layout.

* `Layout.extendedBy`: the layout after registering entries one after the other.
  `registerAll_eq_ok_iff`, `registerAll_eq_error_iff`: when they can all be registered, and which of
  them is at fault otherwise.
* `Layout.Follows`: names in the order in which they first occur, each with the type of its first
  entry. Every registration keeps this, `Follows.extended`.
* `Layout.inWords`: a layout with its numbers in words of 32 bits. `after_registrations`: it is what
  calls leave.
* `Dataset.lookups_agree`: all of it together.
-/

namespace PointTiles
set_option autoImplicit false

-- Sums and powers of numbers are those of the core library, whatever else is imported.
attribute [local instance (high)] Zero.ofOfNat0 instPowNat

/-- The call that registers the entry. -/
def SchemaEntry.registration (e : SchemaEntry) : Layout.Call := .register e.name e.storageType

namespace Layout

variable {l l' : Layout} {name : String} {type : StorageType} {e : SchemaEntry}
  {entries seen : List SchemaEntry} {fault : Fault}

/-! ## Registering entries -/

/-- The layout after registering the entries, each by its storage type. -/
def extendedBy (l : Layout) (entries : List SchemaEntry) : Layout :=
  entries.foldl (fun l e => l.extended e.name e.storageType) l

theorem registerAll_of_untyped (h : e.storageType = .none) :
    Dataset.registerAll (e :: entries) l =
      .error (.unknownDimensionType e.name e.kind e.size) := by
  rw [Dataset.registerAll, if_pos ((StorageType.size_eq_zero_iff _).2 h)]

theorem registerAll_eq_ok_iff (hopen : l.finalized = false) :
    Dataset.registerAll entries l = .ok l' ↔
      (∀ e ∈ entries, e.storageType ≠ .none) ∧ l' = l.extendedBy entries := by
  induction entries generalizing l with
  | nil => simp [Dataset.registerAll, extendedBy, eq_comm]
  | cons e entries ih =>
    rw [List.forall_mem_cons]
    by_cases htype : e.storageType = .none
    · simp [registerAll_of_untyped htype, htype]
    · rw [registerAll_cons htype hopen, ih (finalized_extended.trans hopen), and_assoc,
        and_iff_right htype]
      rfl

/-- The first entry without a storage type is at fault. -/
theorem registerAll_eq_error_iff (hopen : l.finalized = false) :
    Dataset.registerAll entries l = .error fault ↔
      ∃ e, entries.find? (fun e => e.storageType = .none) = some e ∧
        fault = .unknownDimensionType e.name e.kind e.size := by
  induction entries generalizing l with
  | nil => simp [Dataset.registerAll]
  | cons e entries ih =>
    by_cases htype : e.storageType = .none
    · rw [registerAll_of_untyped htype, List.find?_cons_of_pos (by simpa using htype)]
      simp [eq_comm]
    · rw [registerAll_cons htype hopen, ih (finalized_extended.trans hopen),
        List.find?_cons_of_neg (by simpa using htype)]

theorem Packed.extendedBy (hl : l.Packed) (entries : List SchemaEntry) :
    (l.extendedBy entries).Packed := by
  induction entries generalizing l with
  | nil => exact hl
  | cons e entries ih => exact ih hl.extended

/-! ## Names and types -/

/-- The first entry of each name decides: the names are in the order in which they first occur, and
each has the storage type of its first entry. -/
structure Follows (l : Layout) (seen : List SchemaEntry) : Prop where
  names : l.names = (seen.map SchemaEntry.name).eraseDups
  types : ∀ name, (l.dimensions.find? fun d => d.name = name).map Dimension.type =
    (seen.find? fun e => e.name = name).map SchemaEntry.storageType

theorem follows_empty : empty.Follows [] :=
  ⟨rfl, fun _ => rfl⟩

theorem Follows.mem_names_iff (h : l.Follows seen) :
    name ∈ l.names ↔ name ∈ seen.map SchemaEntry.name := by
  rw [h.names, List.mem_eraseDups]

theorem eraseDups_concat_of_mem {ns : List String} (h : name ∈ ns) :
    (ns ++ [name]).eraseDups = ns.eraseDups := by
  rw [List.eraseDups_append]
  simp [List.removeAll, h]

theorem eraseDups_concat_of_not_mem {ns : List String} (h : name ∉ ns) :
    (ns ++ [name]).eraseDups = ns.eraseDups ++ [name] := by
  rw [List.eraseDups_append]
  simp [List.removeAll, List.eraseDups_cons, h]

/-- A name that is known keeps its place and its type; a new one is placed behind the others, and has
the type of the entry. -/
theorem Follows.extended (h : l.Follows seen) (e : SchemaEntry) :
    (l.extended e.name e.storageType).Follows (seen ++ [e]) := by
  have hmem : e.name ∈ l.names ↔ e.name ∈ seen.map SchemaEntry.name := h.mem_names_iff
  rw [Layout.extended]
  split
  next hname =>
    refine ⟨?_, fun name => ?_⟩
    · rw [List.map_append, List.map_singleton, eraseDups_concat_of_mem (hmem.1 hname), h.names]
    · rw [h.types, List.find?_append]
      cases hfind : seen.find? fun e => e.name = name with
      | some first => rfl
      | none =>
        have hother : e.name ≠ name := by
          rintro rfl
          obtain ⟨e', he', hsame⟩ := List.mem_map.1 (hmem.1 hname)
          exact List.find?_eq_none.1 hfind e' he' (by simpa using hsame)
        simp [hother]
  next hname =>
    refine ⟨?_, fun name => ?_⟩
    · rw [names_append, List.map_append, List.map_singleton,
        eraseDups_concat_of_not_mem (mt hmem.2 hname), h.names]
    · have htypes := h.types name
      rw [append, List.find?_append, List.find?_append]
      cases hfind : seen.find? fun e => e.name = name with
      | some first =>
        rw [hfind, Option.map_some] at htypes
        obtain ⟨d, hd, htype⟩ := Option.map_eq_some_iff.1 htypes
        simp [hd, htype]
      | none =>
        rw [hfind, Option.map_none, Option.map_eq_none_iff] at htypes
        rw [htypes]
        by_cases hsame : e.name = name <;> simp [hsame]

theorem Follows.extendedBy (h : l.Follows seen) (entries : List SchemaEntry) :
    (l.extendedBy entries).Follows (seen ++ entries) := by
  induction entries generalizing l seen with
  | nil =>
    rw [List.append_nil]
    exact h
  | cons e entries ih =>
    rw [List.append_cons]
    exact ih (h.extended e)

/-! ## Looking up names -/

/-- A number under which a name is found is the place of the dimension. -/
theorem Packed.dimension?_of_find? {id : Nat} (hl : l.Packed) (hfind : l.find? name = some id) :
    ∃ d, l.dimension? id = some d ∧ l.dimensions.find? (fun d => d.name = name) = some d := by
  obtain ⟨d, hd, rfl⟩ := Option.map_eq_some_iff.1 hfind
  obtain ⟨k, hk⟩ := List.getElem?_of_mem (List.mem_of_find?_eq_some hd)
  refine ⟨d, ?_, hd⟩
  rw [hl.id k d hk]
  exact hk

theorem Follows.isSome_find? (h : l.Follows seen) (name : String) :
    (l.find? name).isSome = (seen.find? fun e => e.name = name).isSome := by
  have htypes := congrArg Option.isSome (h.types name)
  rw [Option.isSome_map, Option.isSome_map] at htypes
  rw [find?, Option.isSome_map, htypes]

theorem Follows.type_eq {d : Dimension} (h : l.Follows seen)
    (hd : l.dimensions.find? (fun d => d.name = name) = some d)
    (he : seen.find? (fun e => e.name = name) = some e) : d.type = e.storageType := by
  have htypes := h.types name
  rw [hd, he] at htypes
  exact Option.some.inj htypes

/-! ## Numbers of 32 bits -/

/-- The layout with every number in a word of 32 bits. -/
def inWords (l : Layout) : Layout :=
  { l with dimensions := l.dimensions.map fun d => { d with id := (UInt32.ofNat d.id).toNat } }

theorem names_inWords (l : Layout) : l.inWords.names = l.names := by
  simp [inWords, names, Function.comp_def]

theorem inWords_append (l : Layout) (name : String) (type : StorageType) :
    (l.append name type).inWords = l.inWords.place name type := by
  simp [inWords, append, place, number]

theorem perform_inWords (hopen : l.finalized = false) (e : SchemaEntry) :
    (l.inWords.perform e.registration).2 = (l.extended e.name e.storageType).inWords := by
  rw [extended, ← names_inWords l]
  split
  next hname =>
    obtain ⟨id, hfind⟩ := Option.ne_none_iff_exists'.1 (mt find?_eq_none_iff.1 (not_not_intro hname))
    rw [SchemaEntry.registration, perform_of_known hfind]
  next hname =>
    rw [SchemaEntry.registration, perform_of_placed (find?_eq_none_iff.2 hname) hopen, inWords_append]

/-- Calls that register entries leave the layout with its numbers in words. -/
theorem after_registrations (hopen : l.finalized = false) (entries : List SchemaEntry) :
    l.inWords.after (entries.map SchemaEntry.registration) = (l.extendedBy entries).inWords := by
  induction entries generalizing l with
  | nil => rfl
  | cons e entries ih =>
    rw [List.map_cons, after, perform_inWords hopen, ih (finalized_extended.trans hopen)]
    rfl

/-- Numbers of no more than `2 ^ 32` dimensions fit into their words. -/
theorem Packed.inWords_eq (hl : l.Packed) (hfew : l.dimensions.length ≤ 2 ^ (32 : Nat)) :
    l.inWords = l := by
  have hdimensions :
      l.dimensions.map (fun d => { d with id := (UInt32.ofNat d.id).toNat }) = l.dimensions := by
    refine (List.map_congr_left fun d hd => ?_).trans (List.map_id _)
    obtain ⟨k, hk⟩ := List.getElem?_of_mem hd
    have hplace : k < l.dimensions.length := (List.getElem?_eq_some_iff.1 hk).1
    have hword : (UInt32.ofNat d.id).toNat = d.id := by
      rw [hl.id k d hk]
      exact UInt32.toNat_ofNat_of_lt' (Nat.lt_of_lt_of_le hplace hfew)
    rw [hword]
    rfl
  rw [inWords, hdimensions]

end Layout

namespace Dataset

/-! ## Layouts of datasets -/

theorem layout_eq_ok_iff {d : Dataset} {l : Layout} :
    d.layout = .ok l ↔
      (∀ e ∈ d.schema, e.storageType ≠ .none) ∧ l = Layout.empty.extendedBy d.schema :=
  Layout.registerAll_eq_ok_iff rfl

theorem layout_eq_error_iff {d : Dataset} {fault : Fault} :
    d.layout = .error fault ↔ ∃ e, d.schema.find? (fun e => e.storageType = .none) = some e ∧
      fault = .unknownDimensionType e.name e.kind e.size :=
  Layout.registerAll_eq_error_iff rfl

/-- The layout of a dataset, whatever entries its schema has. There is none exactly where an entry has
no storage type, and the first such entry is named. Otherwise the dimensions are in the order in which
their names first occur, a name has a dimension exactly where the dataset has an entry for it, and the
dimension has the storage type and the declared size of that entry. Calls that register the entries,
which number the dimensions in words, leave the same layout, though numbers that do not fit lose their
high bits. -/
theorem lookups_agree (d : Dataset) :
    ((∃ fault, d.layout = .error fault) ↔ ∃ e ∈ d.schema, e.storageType = .none) ∧
    (∀ fault, d.layout = .error fault ↔
      ∃ e, d.schema.find? (fun e => e.storageType = .none) = some e ∧
        fault = .unknownDimensionType e.name e.kind e.size) ∧
    ∀ l, d.layout = .ok l →
      l.dimensions.map Dimension.name = (d.schema.map SchemaEntry.name).eraseDups ∧
      (∀ name, (∃ id, l.find? name = some id) ↔ ∃ e, d.entry? name = some e) ∧
      (∀ name id e, l.find? name = some id → d.entry? name = some e →
        ∃ dimension, l.dimension? id = some dimension ∧ dimension.name = name ∧
          dimension.type = e.storageType ∧ dimension.size = e.size.toNat) ∧
      Layout.empty.after (d.schema.map SchemaEntry.registration) = l.inWords ∧
      (l.dimensions.length ≤ 2 ^ (32 : Nat) → l.inWords = l) := by
  refine ⟨?_, fun fault => layout_eq_error_iff, fun l hlayout => ?_⟩
  · simp only [layout_eq_error_iff]
    constructor
    · rintro ⟨fault, e, he, -⟩
      exact ⟨e, List.mem_of_find?_eq_some he, by simpa using List.find?_some he⟩
    · rintro ⟨e, he, htype⟩
      cases hfirst : d.schema.find? fun e => e.storageType = .none with
      | none => exact absurd htype (by simpa using List.find?_eq_none.1 hfirst e he)
      | some first => exact ⟨_, first, rfl, rfl⟩
  · obtain ⟨htyped, rfl⟩ := layout_eq_ok_iff.1 hlayout
    have hpacked := Layout.packed_empty.extendedBy d.schema
    have hfollows := Layout.follows_empty.extendedBy d.schema
    rw [List.nil_append] at hfollows
    have hwords := Layout.after_registrations (l := .empty) rfl d.schema
    have hknown : ∀ name, (∃ id, (Layout.empty.extendedBy d.schema).find? name = some id) ↔
        ∃ e, d.entry? name = some e := by
      intro name
      rw [← Option.isSome_iff_exists, ← Option.isSome_iff_exists, hfollows.isSome_find?]
      rfl
    refine ⟨hfollows.names, hknown, fun name id e hfind he => ?_, hwords, hpacked.inWords_eq⟩
    obtain ⟨dimension, hplace, hfound⟩ := hpacked.dimension?_of_find? hfind
    have htype := hfollows.type_eq hfound he
    refine ⟨dimension, hplace, by simpa using List.find?_some hfound, htype, ?_⟩
    rw [Dimension.size, htype]
    exact SchemaEntry.size_storageType (htyped e (List.mem_of_find?_eq_some he))

/-- Two entries of one name and of different types, with nameless ones beside them; and a schema whose
second entry has no storage type. -/
theorem lookups_agree_on_repeated_names :
    let document (entries : List Json) : Json :=
      .object [("bounds", .array ([0, 0, 0, 1, 1, 1].map fun n => .number (.int n))),
        ("dataType", .string "binary"), ("schema", .array entries)]
    let x : Json :=
      .object [("name", .string "X"), ("size", .number (.int 4)), ("type", .string "signed")]
    let x' : Json :=
      .object [("name", .string "X"), ("size", .number (.int 8)), ("type", .string "float")]
    let nameless : Json := .object [("size", .number (.int 2)), ("type", .string "unsigned")]
    let untyped : Json := .object [("name", .string "Y"), ("size", .number (.int 3))]
    (∃ d l, ofJson (document [x, nameless, x', nameless]) = .ok d ∧ d.layout = .ok l ∧
      l.dimensions.map Dimension.name = ["X", ""] ∧ (∀ id, l.find? "Y" ≠ some id) ∧
      l.find? "X" = some 0 ∧ ∃ dimension, l.dimension? 0 = some dimension ∧
        dimension.type = .signed32 ∧ dimension.size = 4) ∧
    ∃ d, ofJson (document [x, untyped, untyped]) = .ok d ∧
      d.layout = .error (.unknownDimensionType "Y" "" 3) := by
  intro document x x' nameless untyped
  obtain ⟨d, hopen, hschema⟩ : ∃ d, ofJson (document [x, nameless, x', nameless]) = .ok d ∧
      d.schema = [⟨"X", "signed", 4, none, none⟩, ⟨"", "unsigned", 2, none, none⟩,
        ⟨"X", "float", 8, none, none⟩, ⟨"", "unsigned", 2, none, none⟩] := ⟨_, rfl, rfl⟩
  obtain ⟨d', hopen', hschema'⟩ : ∃ d, ofJson (document [x, untyped, untyped]) = .ok d ∧
      d.schema = [⟨"X", "signed", 4, none, none⟩, ⟨"Y", "", 3, none, none⟩,
        ⟨"Y", "", 3, none, none⟩] := ⟨_, rfl, rfl⟩
  have hlayout : d.layout =
      .ok ⟨[⟨0, "X", .signed32, 0⟩, ⟨1, "", .unsigned16, 4⟩], 6, false⟩ := by
    rw [layout, hschema]
    rfl
  obtain ⟨-, -, hagree⟩ := lookups_agree d
  obtain ⟨-, hfaults, -⟩ := lookups_agree d'
  obtain ⟨hnames, hknown, hfound, -, -⟩ := hagree _ hlayout
  refine ⟨⟨d, _, hopen, hlayout, hnames.trans ?_, fun id hY => ?_, rfl, ?_⟩, d', hopen', ?_⟩
  · rw [hschema]
    decide
  · obtain ⟨e, he⟩ := (hknown "Y").1 ⟨id, hY⟩
    have hnone : d.entry? "Y" = none := by
      unfold entry?
      rw [hschema]
      rfl
    rw [hnone] at he
    cases he
  · have hentry : d.entry? "X" = some ⟨"X", "signed", 4, none, none⟩ := by
      unfold entry?
      rw [hschema]
      rfl
    obtain ⟨dimension, hplace, -, htype, hsize⟩ := hfound "X" 0 _ rfl hentry
    exact ⟨dimension, hplace, htype, hsize⟩
  · refine (hfaults _).2 ⟨⟨"Y", "", 3, none, none⟩, ?_, rfl⟩
    rw [hschema']
    rfl

end Dataset

end PointTiles
