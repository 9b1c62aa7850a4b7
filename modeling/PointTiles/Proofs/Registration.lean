import Mathlib.Data.List.Dedup
import Mathlib.Data.List.Perm.Subperm
import PointTiles.InPlace
import PointTiles.Proofs.Packing

/-! # Layouts under calls

A layout begins without dimensions and is called again and again, to register names of whatever type
and to be finalized. What a dimension is, its first registration decides.

* `Layout.Performed`: one case for each outcome of a call. `performed_perform` says that there are
  no others.
* `Layout.Laid`: what every list of calls keeps. Numbers are words of 32 bits here;
  `Laid.packed` counts the dimensions.
* `Layout.dimensions_prefix_after`: no call changes a dimension that is there.
* `Layout.find?_after_iff`: a name is found under the number that its first registration answered.
* `Layout.first_registration_settles`: all of it together.
-/

namespace PointTiles.Layout
set_option autoImplicit false

-- Sums and powers of numbers are those of the core library, whatever else is imported.
attribute [local instance (high)] Zero.ofOfNat0 instPowNat

variable {l l' : Layout} {name : String} {type : StorageType} {call : Call}
  {answer : Except Fault (Option Nat)}

/-! ## One call -/

/-- The number of the next dimension, in a word. -/
def number (l : Layout) : Nat := (UInt32.ofNat l.dimensions.length).toNat

/-- Places a dimension behind the others, with its number in a word. -/
def place (l : Layout) (name : String) (type : StorageType) : Layout :=
  { l with
    dimensions := l.dimensions ++ [⟨l.number, name, type, l.pointSize⟩]
    pointSize := l.pointSize + type.size }

/-- The outcomes of a call. -/
inductive Performed (l : Layout) : Call → Except Fault (Option Nat) → Layout → Prop where
  | known {name : String} {type : StorageType} {id : Nat} (hknown : l.find? name = some id) :
      Performed l (.register name type) (.ok (some id)) l
  | refused {name : String} {type : StorageType} (hnew : l.find? name = none)
      (hclosed : l.finalized = true) :
      Performed l (.register name type) (.error (.layoutFinalized name)) l
  | placed {name : String} {type : StorageType} (hnew : l.find? name = none)
      (hopen : l.finalized = false) :
      Performed l (.register name type) (.ok (some l.number)) (l.place name type)
  | closed : Performed l .finalize (.ok none) l.finalize

theorem perform_of_known {id : Nat} (hknown : l.find? name = some id) (type : StorageType) :
    l.perform (.register name type) = (.ok (some id), l) := by
  simp [perform, Call.run, registerInPlace, hknown]

theorem perform_of_refused (hnew : l.find? name = none) (hclosed : l.finalized = true)
    (type : StorageType) :
    l.perform (.register name type) = (.error (.layoutFinalized name), l) := by
  simp [perform, Call.run, registerInPlace, hnew, hclosed]

theorem perform_of_placed (hnew : l.find? name = none) (hopen : l.finalized = false)
    (type : StorageType) :
    l.perform (.register name type) = (.ok (some l.number), l.place name type) := by
  simp [perform, Call.run, registerInPlace, hnew, hopen, place, number]

theorem perform_finalize : l.perform .finalize = (.ok none, l.finalize) := by
  simp [perform, Call.run]

theorem performed_perform (l : Layout) (call : Call) :
    l.Performed call (l.perform call).1 (l.perform call).2 := by
  cases call with
  | finalize =>
    rw [perform_finalize]
    exact .closed
  | register name type =>
    cases hfind : l.find? name with
    | some id =>
      rw [perform_of_known hfind]
      exact .known hfind
    | none =>
      cases hfinal : l.finalized with
      | true =>
        rw [perform_of_refused hfind hfinal]
        exact .refused hfind hfinal
      | false =>
        rw [perform_of_placed hfind hfinal]
        exact .placed hfind hfinal

/-- While numbers fit their words, a call to register answers what registering answers, and leaves
the layout that registering makes. -/
theorem perform_register (hfits : l.dimensions.length < 2 ^ (32 : Nat)) (name : String)
    (type : StorageType) :
    l.perform (.register name type) = match l.register name type with
      | .ok (id, l') => (.ok (some id), l')
      | .error fault => (.error fault, l) := by
  have hnumber : l.number = l.dimensions.length := UInt32.toNat_ofNat_of_lt' hfits
  cases hfind : l.find? name with
  | some id => rw [perform_of_known hfind, register, hfind]
  | none =>
    cases hfinal : l.finalized with
    | true => simp [perform_of_refused hfind hfinal, register, hfind, hfinal]
    | false =>
      simp [perform_of_placed hfind hfinal, register, hfind, hfinal, place, append, hnumber]

/-! ## What a call keeps -/

theorem names_place : (l.place name type).names = l.names ++ [name] := by
  simp [names, place]

/-- What a layout is after any calls. Its dimensions lie one behind the other, each name occurs once,
and a dimension's number is its place in a word. -/
structure Laid (l : Layout) : Prop where
  number : ∀ (k : Nat) d, l.dimensions[k]? = some d → d.id = (UInt32.ofNat k).toNat
  spaced : Spaced l.dimensions
  total : l.pointSize = (l.dimensions.map Dimension.size).sum
  distinct : l.names.Nodup

theorem laid_empty : empty.Laid := by
  constructor <;> simp [empty, names, Spaced]

theorem Laid.place (hl : l.Laid) (hnew : l.find? name = none) : (l.place name type).Laid := by
  refine ⟨fun k d hd => ?_, Spaced.concat hl.spaced hl.total, ?_, ?_⟩
  · rcases getElem?_concat_cases hd with hold | ⟨rfl, rfl⟩
    · exact hl.number k d hold
    · rfl
  · simp [Layout.place, hl.total, Dimension.size]
  · rw [names_place, ← List.concat_eq_append]
    exact hl.distinct.concat (find?_eq_none_iff.1 hnew)

theorem Laid.step (hl : l.Laid) (h : l.Performed call answer l') : l'.Laid := by
  cases h with
  | known => exact hl
  | refused => exact hl
  | placed hnew => exact hl.place hnew
  | closed => exact ⟨hl.number, hl.spaced, hl.total, hl.distinct⟩

/-- Dimensions whose numbers fit their words are numbered by their places. -/
theorem Laid.packed (hl : l.Laid) (hfits : l.dimensions.length ≤ 2 ^ (32 : Nat)) : l.Packed := by
  refine ⟨fun k d hd => ?_, hl.spaced, hl.total, hl.distinct⟩
  have hk : k < l.dimensions.length := (List.getElem?_eq_some_iff.1 hd).1
  rw [hl.number k d hd]
  exact UInt32.toNat_ofNat_of_lt' (Nat.lt_of_lt_of_le hk hfits)

theorem Performed.dimensions_prefix (h : l.Performed call answer l') :
    l.dimensions <+: l'.dimensions := by
  cases h with
  | known => exact List.prefix_refl _
  | refused => exact List.prefix_refl _
  | placed => exact List.prefix_append _ _
  | closed => exact List.prefix_refl _

theorem Performed.finalized_iff (h : l.Performed call answer l') :
    l'.finalized = true ↔ l.finalized = true ∨ call = .finalize := by
  cases h with
  | known => simp
  | refused => simp
  | placed => simp [Layout.place]
  | closed => simp [finalize]

theorem Performed.names (h : l.Performed call answer l') (hname : name ∈ l'.names) :
    name ∈ l.names ∨ call.name? = some name := by
  cases h with
  | known => exact .inl hname
  | refused => exact .inl hname
  | @placed name' type =>
    rw [names_place, List.mem_append, List.mem_singleton] at hname
    exact hname.imp_right (fun hsame => congrArg some hsame.symm)
  | closed => exact .inl hname

/-! ## What a call does to a name -/

theorem find?_of_prefix {id : Nat} (h : l.dimensions <+: l'.dimensions)
    (hfind : l.find? name = some id) : l'.find? name = some id := by
  obtain ⟨more, hmore⟩ := h
  obtain ⟨d, hd, rfl⟩ := Option.map_eq_some_iff.1 hfind
  rw [find?, ← hmore, List.find?_append, hd]
  rfl

theorem find?_place {name' : String} (hnew : l.find? name = none) :
    (l.place name' type).find? name = if name' = name then some l.number else none := by
  have hnone : l.dimensions.find? (fun d => d.name = name) = none := Option.map_eq_none_iff.1 hnew
  rw [find?, place, List.find?_append, hnone]
  by_cases hsame : name' = name <;> simp [hsame]

/-- A name is found under the number that its registration answers. -/
theorem Performed.find?_of_ok {id : Nat}
    (h : l.Performed (.register name type) (.ok (some id)) l') : l'.find? name = some id := by
  cases h with
  | known hknown => exact hknown
  | placed hnew =>
    rw [find?_place hnew, if_pos rfl]

/-- Only its registration makes a name known. -/
theorem Performed.eq_register {id : Nat} (h : l.Performed call answer l')
    (hnew : l.find? name = none) (hfind : l'.find? name = some id) :
    ∃ type, call = .register name type ∧ answer = .ok (some id) := by
  cases h with
  | known => rw [hnew] at hfind; cases hfind
  | refused => rw [hnew] at hfind; cases hfind
  | @placed name' type =>
    rw [find?_place hnew] at hfind
    obtain ⟨rfl, hid⟩ := Option.ite_none_right_eq_some.1 hfind
    exact ⟨type, rfl, congrArg Except.ok hid⟩
  | closed =>
    have hsame : l.finalize.find? name = l.find? name := rfl
    rw [hsame, hnew] at hfind
    cases hfind

/-- After its registration a name is known, or never will be. -/
theorem Performed.settled (h : l.Performed (.register name type) answer l') :
    (∃ id, l'.find? name = some id) ∨ l'.finalized = true := by
  cases h with
  | known hknown => exact .inl ⟨_, hknown⟩
  | refused _ hclosed => exact .inr hclosed
  | placed hnew => exact .inl ⟨_, by rw [find?_place hnew, if_pos rfl]⟩

/-! ## Lists of calls -/

theorem after_append (l : Layout) (calls later : List Call) :
    l.after (calls ++ later) = (l.after calls).after later := by
  induction calls generalizing l with
  | nil => rfl
  | cons call calls ih => exact ih _

/-- What every call keeps, a list of calls keeps. -/
theorem after_induction {P : Layout → Prop}
    (hstep : ∀ {l call answer l'}, P l → l.Performed call answer l' → P l') (hl : P l)
    (calls : List Call) : P (l.after calls) := by
  induction calls generalizing l with
  | nil => exact hl
  | cons call calls ih => exact ih (hstep hl (performed_perform l call))

theorem laid_after (calls : List Call) : (empty.after calls).Laid :=
  after_induction Laid.step laid_empty calls

theorem dimensions_prefix_after (l : Layout) (calls : List Call) :
    l.dimensions <+: (l.after calls).dimensions :=
  after_induction (P := fun l' => l.dimensions <+: l'.dimensions)
    (fun hprefix h => hprefix.trans h.dimensions_prefix) (List.prefix_refl _) calls

theorem finalized_after_iff {calls : List Call} :
    (l.after calls).finalized = true ↔ l.finalized = true ∨ .finalize ∈ calls := by
  induction calls generalizing l with
  | nil => simp [after]
  | cons call calls ih =>
    rw [after, ih, (performed_perform l call).finalized_iff, List.mem_cons, or_assoc,
      @eq_comm _ call]

theorem settled_of_mem {calls : List Call} (h : .register name type ∈ calls) :
    (∃ id, (l.after calls).find? name = some id) ∨ (l.after calls).finalized = true := by
  obtain ⟨before, later, rfl⟩ := List.append_of_mem h
  rw [after_append, after]
  rcases (performed_perform (l.after before) (.register name type)).settled with ⟨id, hfind⟩ | hclosed
  · exact .inl ⟨id, find?_of_prefix (dimensions_prefix_after _ later) hfind⟩
  · exact .inr (finalized_after_iff.2 (.inl hclosed))

theorem names_after {calls : List Call} (hname : name ∈ (l.after calls).names) :
    name ∈ l.names ∨ name ∈ calls.filterMap Call.name? := by
  induction calls generalizing l with
  | nil => exact .inl hname
  | cons call calls ih =>
    rw [List.mem_filterMap]
    rcases ih hname with hbefore | hlater
    · rcases (performed_perform l call).names hbefore with hold | hcall
      · exact .inl hold
      · exact .inr ⟨call, List.mem_cons_self .., hcall⟩
    · obtain ⟨call', hcall', hname'⟩ := List.mem_filterMap.1 hlater
      exact .inr ⟨call', List.mem_cons_of_mem _ hcall', hname'⟩

/-- There are no more dimensions than names. -/
theorem length_dimensions_after_le (calls : List Call) :
    (empty.after calls).dimensions.length ≤ (calls.filterMap Call.name?).dedup.length := by
  have hsubset : (empty.after calls).names ⊆ (calls.filterMap Call.name?).dedup := by
    intro name hname
    rw [List.mem_dedup]
    exact (names_after hname).resolve_left List.not_mem_nil
  have hle := ((laid_after calls).distinct.subperm hsubset).length_le
  rwa [names, List.length_map] at hle

/-- A name that becomes known is registered by one of the calls, when it is not known yet. -/
theorem exists_registration {id : Nat} {calls : List Call} (hnew : l.find? name = none)
    (hfind : (l.after calls).find? name = some id) :
    ∃ before type later, calls = before ++ .register name type :: later ∧
      (l.after before).find? name = none ∧
      ((l.after before).perform (.register name type)).1 = .ok (some id) := by
  induction calls generalizing l with
  | nil =>
    rw [after, hnew] at hfind
    cases hfind
  | cons call calls ih =>
    cases hnext : (l.perform call).2.find? name with
    | none =>
      obtain ⟨before, type, later, rfl, hbefore, hanswer⟩ := ih hnext hfind
      exact ⟨call :: before, type, later, rfl, hbefore, hanswer⟩
    | some id' =>
      have hstays := find?_of_prefix (dimensions_prefix_after _ calls) hnext
      rw [after, hstays] at hfind
      obtain rfl := Option.some.inj hfind
      obtain ⟨type, rfl, hanswer⟩ := (performed_perform l call).eq_register hnew hnext
      exact ⟨[], type, calls, rfl, hnew, hanswer⟩

/-- A name is found under the number that its first registration answered. -/
theorem find?_after_iff {id : Nat} {calls : List Call} :
    (empty.after calls).find? name = some id ↔
      ∃ before type later, calls = before ++ .register name type :: later ∧
        (∀ type', .register name type' ∉ before) ∧
        ((empty.after before).perform (.register name type)).1 = .ok (some id) := by
  constructor
  · intro hfind
    obtain ⟨before, type, later, hcalls, hnew, hanswer⟩ := exists_registration rfl hfind
    refine ⟨before, type, later, hcalls, fun type' hmem => ?_, hanswer⟩
    -- An earlier registration would have made the name known, or this one would be refused.
    rcases settled_of_mem (l := empty) hmem with ⟨id', hfind'⟩ | hclosed
    · rw [hnew] at hfind'
      cases hfind'
    · rw [perform_of_refused hnew hclosed] at hanswer
      cases hanswer
  · rintro ⟨before, type, later, rfl, -, hanswer⟩
    have hperformed := performed_perform (empty.after before) (.register name type)
    rw [hanswer] at hperformed
    rw [after_append, after]
    exact find?_of_prefix (dimensions_prefix_after _ later) hperformed.find?_of_ok

/-! ## All calls -/

/-- A layout that begins without dimensions and is called to register fewer than `2 ^ 32` different
names, whatever their types, and to be finalized. Dimensions are numbered by their places and lie
one behind the other, and no name occurs twice. A name is found under the number that its first
registration answered, and no later call changes a dimension. To register a known name again answers
its number and changes nothing, and a new name is refused after the layout has been finalized. -/
theorem first_registration_settles (calls : List Call)
    (hfew : (calls.filterMap Call.name?).dedup.length < 2 ^ (32 : Nat)) :
    let l := empty.after calls
    ((∀ (k : Nat) d, l.dimensions[k]? = some d →
        d.id = k ∧ d.offset = ((l.dimensions.take k).map Dimension.size).sum) ∧
      l.pointSize = (l.dimensions.map Dimension.size).sum ∧
      (l.dimensions.map Dimension.name).Nodup) ∧
    (∀ name id, l.find? name = some id ↔
      ∃ before type later, calls = before ++ .register name type :: later ∧
        (∀ type', .register name type' ∉ before) ∧
        ((empty.after before).perform (.register name type)).1 = .ok (some id)) ∧
    (∀ later, l.dimensions <+: (l.after later).dimensions) ∧
    (∀ name type id, l.find? name = some id →
      l.perform (.register name type) = (.ok (some id), l)) ∧
    (∀ name type, .finalize ∈ calls → l.find? name = none →
      l.perform (.register name type) = (.error (.layoutFinalized name), l)) ∧
    (∀ name type, .finalize ∉ calls → l.find? name = none →
      l.perform (.register name type) = (.ok (some l.dimensions.length), l.append name type)) ∧
    ∀ name type, l.perform (.register name type) = match l.register name type with
      | .ok (id, l') => (.ok (some id), l')
      | .error fault => (.error fault, l) := by
  intro l
  have hlength : l.dimensions.length < 2 ^ (32 : Nat) :=
    Nat.lt_of_le_of_lt (length_dimensions_after_le calls) hfew
  have hpacked : l.Packed := (laid_after calls).packed (Nat.le_of_lt hlength)
  refine ⟨⟨fun k d hd => ⟨hpacked.id k d hd, hpacked.offset k d hd⟩, hpacked.total,
    hpacked.distinct⟩, fun name id => find?_after_iff, dimensions_prefix_after l, ?_, ?_, ?_,
    perform_register hlength⟩
  · intro name type id hknown
    exact perform_of_known hknown type
  · intro name type hfinalize hnew
    exact perform_of_refused hnew (finalized_after_iff.2 (.inr hfinalize)) type
  · intro name type hfinalize hnew
    have hopen : l.finalized = false := by
      refine Bool.eq_false_iff.2 (fun hclosed => ?_)
      exact (finalized_after_iff.1 hclosed).elim Bool.false_ne_true hfinalize
    rw [perform_register hlength, register, hnew]
    simp [hopen]

/-- A name of no size takes its number and no bytes, a name registered twice keeps its first type,
and a new name comes too late. -/
theorem first_registration_settles_finalized :
    let calls : List Call := [.register "X" .double, .register "Flags" .none,
      .register "X" .signed8, .register "Return" .unsigned16, .finalize, .register "Z" .double]
    let l := empty.after calls
    (calls.filterMap Call.name?).dedup.length < 2 ^ (32 : Nat) ∧
      l.dimensions =
        [⟨0, "X", .double, 0⟩, ⟨1, "Flags", .none, 8⟩, ⟨2, "Return", .unsigned16, 8⟩] ∧
      l.pointSize = 10 ∧
      l.perform (.register "Return" .float) = (.ok (some 2), l) ∧
      l.perform (.register "Z" .none) = (.error (.layoutFinalized "Z"), l) := by
  intro calls l
  have hfew : (calls.filterMap Call.name?).dedup.length < 2 ^ (32 : Nat) := by decide
  have hdimensions : l.dimensions =
      [⟨0, "X", .double, 0⟩, ⟨1, "Flags", .none, 8⟩, ⟨2, "Return", .unsigned16, 8⟩] := rfl
  obtain ⟨⟨-, htotal, -⟩, -, -, hknown, hnew, -⟩ := first_registration_settles calls hfew
  refine ⟨hfew, hdimensions, ?_, hknown "Return" .float 2 rfl, hnew "Z" .none (by decide) rfl⟩
  rw [htotal, hdimensions]
  rfl

end PointTiles.Layout
