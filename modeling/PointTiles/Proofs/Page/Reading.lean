import Mathlib.Data.List.Basic
import PointTiles.Page
import PointTiles.Proofs.Json.NameOrder
import PointTiles.Proofs.KeyText

/-! # Reading a page

Which documents are pages, and what is in them.

* `Address.Denotes`: a name denotes an address.
* `PageEntry.toInt`: the integer that an entry is written as. `ofJson?_eq_some_iff`: the values that
  are read as entries.
* `PageEntry.ofViews?`: an entry by way of two words of a value, the signed one first.
  `ofViews?_eq_ofJson?`: it is the same.
* `find?_eq_some_iff_of_pairwise`: what is found first in an ordered list.
* `Page.Reads`, `FaultOf`: the members that are read, and what is wrong with the others.
* `Page.readMembers_eq_error_iff`, `getElem?_readMembers`: the members one after the other.
* `Page.reading_of_members`: a page has an entry from each address that a name denotes, that of the
  greatest such name; the first member that does not read is the one at fault.
-/

namespace PointTiles
set_option autoImplicit false

-- Powers of numbers are those of the core library, whatever else is imported.
attribute [local instance (high)] instPowNat

/-- The name is the text of the address, leading zeros aside. -/
def Address.Denotes (name : String) (a : Address) : Prop :=
  ∃ runs, Address.Grammar name runs ∧ a.toNats = runs.map Decimal.number

theorem Address.denotes_iff {name : String} {a : Address} :
    Denotes name a ↔ ofText? name = some a :=
  ofText?_eq_some_iff.symm

instance (name : String) (a : Address) : Decidable (Address.Denotes name a) :=
  decidable_of_iff _ Address.denotes_iff.symm

/-! ## Values -/

/-- The number as a signed 64-bit word, if it is an integer in that range. -/
def Number.integer? : Number → Option Int64
  | .int i => if -2 ^ 63 ≤ i ∧ i < 2 ^ 63 then some (Int64.ofInt i) else none
  | .float _ => none

namespace Json

def integer? : Json → Option Int64
  | .number n => n.integer?
  | _ => none

theorem natural?_eq_some_iff {value : Json} {n : UInt64} :
    value.natural? = some n ↔ value = .number (.int n.toNat) := by
  constructor
  · intro h
    rw [natural?.eq_def] at h
    split at h
    next number =>
      rw [Number.natural?.eq_def] at h
      split at h
      next m =>
        obtain ⟨hm, hn⟩ := Option.ite_none_right_eq_some.1 h
        obtain rfl := Option.some.inj hn
        rw [UInt64.toNat_ofNat_of_lt' hm]
        rfl
      next => cases h
    next => cases h
  · rintro rfl
    have hread : natural? (.number (.int (n.toNat : Int))) =
        if n.toNat < UInt64.size then some (UInt64.ofNat n.toNat) else none := rfl
    rw [hread, if_pos n.toNat_lt_size, UInt64.ofNat_toNat]

theorem integer?_eq_some_iff {value : Json} {i : Int64} :
    value.integer? = some i ↔ value = .number (.int i.toInt) := by
  constructor
  · intro h
    rw [integer?.eq_def] at h
    split at h
    next number =>
      rw [Number.integer?.eq_def] at h
      split at h
      next j =>
        obtain ⟨⟨hmin, hmax⟩, hi⟩ := Option.ite_none_right_eq_some.1 h
        obtain rfl := Option.some.inj hi
        rw [Int64.toInt_ofInt_of_le hmin hmax]
      next => cases h
    next => cases h
  · rintro rfl
    have hread : integer? (.number (.int i.toInt)) =
        if -2 ^ 63 ≤ i.toInt ∧ i.toInt < 2 ^ 63 then some (Int64.ofInt i.toInt) else none := rfl
    rw [hread, if_pos ⟨i.le_toInt, i.toInt_lt⟩, Int64.ofInt_toInt]

end Json

namespace PageEntry

/-- The integer that the entry is written as. -/
def toInt : PageEntry → Int
  | points n => n.toNat
  | subtree => -1

/-- The entry of a value, which is looked at as a signed word first and as an unsigned one then. -/
def ofViews? (value : Json) : Option PageEntry :=
  match value.integer? with
  | some i =>
    if i = -1 then some .subtree
    else if 0 ≤ i then some (.points i.toUInt64)
    else value.natural?.map .points
  | none => value.natural?.map .points

theorem ofJson?_eq_some_iff {value : Json} {entry : PageEntry} :
    ofJson? value = some entry ↔ value = .number (.int entry.toInt) := by
  constructor
  · intro h
    rw [ofJson?.eq_def] at h
    split at h
    next n =>
      obtain ⟨hn, hentry⟩ := Option.ite_none_right_eq_some.1 h
      obtain rfl := Option.some.inj hentry
      rw [toInt, UInt64.toNat_ofNat_of_lt' hn]
      rfl
    next =>
      obtain rfl := Option.some.inj h
      rfl
    next => cases h
  · rintro rfl
    cases entry with
    | points n =>
      have hn : n.toNat < UInt64.size := n.toNat_lt_size
      have hread : ofJson? (.number (.int (n.toNat : Int))) =
          if n.toNat < UInt64.size then some (points (UInt64.ofNat n.toNat)) else none := rfl
      rw [toInt, hread, if_pos hn, UInt64.ofNat_toNat]
    | subtree => rfl

theorem toInt_range (entry : PageEntry) : -1 ≤ entry.toInt ∧ entry.toInt < 2 ^ 64 := by
  cases entry with
  | points n =>
    have hn : n.toNat < 2 ^ 64 := n.toNat_lt
    simp only [toInt]
    omega
  | subtree => decide

theorem exists_toInt {i : Int} (hmin : -1 ≤ i) (hmax : i < 2 ^ 64) :
    ∃ entry : PageEntry, entry.toInt = i := by
  rcases Int.lt_or_eq_of_le hmin with hlt | heq
  · refine ⟨.points (UInt64.ofNat i.toNat), ?_⟩
    have hword : i.toNat < UInt64.size := by
      rw [UInt64.size]
      omega
    rw [toInt, UInt64.toNat_ofNat_of_lt' hword]
    omega
  · exact ⟨.subtree, heq⟩

/-- The values that are read as entries are the integers from minus one up. -/
theorem exists_ofJson?_iff {value : Json} : (∃ entry, ofJson? value = some entry) ↔
    ∃ i : Int, value = .number (.int i) ∧ -1 ≤ i ∧ i < 2 ^ 64 := by
  constructor
  · rintro ⟨entry, hentry⟩
    exact ⟨entry.toInt, ofJson?_eq_some_iff.1 hentry, entry.toInt_range⟩
  · rintro ⟨i, rfl, hmin, hmax⟩
    obtain ⟨entry, rfl⟩ := exists_toInt hmin hmax
    exact ⟨entry, ofJson?_eq_some_iff.2 rfl⟩

/-- Minus zero is read as a double, and no entry. -/
example : Json.parse "-0" = .ok (.number (.float (-(0 : Nat).toUInt64.toFloat))) ∧
    ofJson? (.number (.float (-(0 : Nat).toUInt64.toFloat))) = none :=
  ⟨rfl, rfl⟩

/-- All values but minus one are read as unsigned words. -/
theorem ofJson?_eq_map_natural? {value : Json} (hvalue : value ≠ .number (.int (-1))) :
    ofJson? value = value.natural?.map .points := by
  ext entry
  rw [ofJson?_eq_some_iff, Option.map_eq_some_iff]
  constructor
  · rintro rfl
    cases entry with
    | points n => exact ⟨n, Json.natural?_eq_some_iff.2 rfl, rfl⟩
    | subtree => exact absurd rfl hvalue
  · rintro ⟨n, hn, rfl⟩
    exact Json.natural?_eq_some_iff.1 hn

theorem ofViews?_eq_ofJson? (value : Json) : ofViews? value = ofJson? value := by
  rw [ofViews?]
  split
  next i hi =>
    obtain rfl := Json.integer?_eq_some_iff.1 hi
    by_cases hminus : i = -1
    · rw [if_pos hminus, hminus]
      rfl
    · have hvalue : Json.number (.int i.toInt) ≠ .number (.int (-1)) := by
        intro heq
        have hint : i.toInt = (-1 : Int64).toInt := Number.int.inj (Json.number.inj heq)
        exact hminus (Int64.toInt_inj.1 hint)
      rw [if_neg hminus, ofJson?_eq_map_natural? hvalue]
      split_ifs with hi
      · -- A signed word that is not negative is the same number without its sign.
        have hword : (i.toUInt64.toNat : Int) = i.toInt := by
          rw [Int64.toNat_toUInt64_of_le hi, ← Int64.toInt_eq_toNatClampNeg hi]
        rw [Json.natural?_eq_some_iff.2 (by rw [hword]), Option.map_some]
      · rfl
  next hnone =>
    refine (ofJson?_eq_map_natural? ?_).symm
    rintro rfl
    cases hnone

end PageEntry

/-! ## Lists in order -/

/-- What is found first in an ordered list is the least of its members with the property. -/
theorem find?_eq_some_iff_of_pairwise {β : Type} {r : β → β → Prop} {l : List β} {p : β → Bool}
    {x : β} (hl : l.Pairwise r) (hasymm : ∀ y z, r y z → ¬ r z y) :
    l.find? p = some x ↔ x ∈ l ∧ p x = true ∧ ∀ y ∈ l, p y = true → y = x ∨ r x y := by
  have hleast : ∀ x, l.find? p = some x → ∀ y ∈ l, p y = true → y = x ∨ r x y := by
    intro x hx y hy hpy
    obtain ⟨-, before, after, rfl, hbefore⟩ := List.find?_eq_some_iff_append.1 hx
    rcases List.mem_append.1 hy with hy | hy
    · have hnot := hbefore y hy
      rw [hpy] at hnot
      cases hnot
    · have hrest := List.pairwise_cons.1 (List.pairwise_append.1 hl).2.1
      exact (List.mem_cons.1 hy).imp_right (hrest.1 y)
  constructor
  · intro hx
    exact ⟨List.mem_of_find?_eq_some hx, List.find?_some hx, hleast x hx⟩
  · rintro ⟨hx, hpx, hmin⟩
    obtain ⟨z, hz⟩ := Option.isSome_iff_exists.1 (List.find?_isSome.2 ⟨x, hx, hpx⟩)
    rw [hz]
    rcases hleast z hz x hx hpx with rfl | hzx
    · rfl
    · rcases hmin z (List.mem_of_find?_eq_some hz) (List.find?_some hz) with rfl | hxz
      · rfl
      · exact absurd hzx (hasymm x z hxz)

namespace Page

/-! ## Members -/

/-- The name of the member denotes an address, and its value is an integer that an entry is written
as. -/
def Reads (m : String × Json) : Prop :=
  (∃ a, Address.Denotes m.1 a) ∧ ∃ i : Int, m.2 = .number (.int i) ∧ -1 ≤ i ∧ i < 2 ^ 64

/-- What is wrong with a member: its name, or else its value. -/
def FaultOf (m : String × Json) (fault : Fault) : Prop :=
  (¬ ∃ a, Address.Denotes m.1 a) ∧ fault = .malformedKey m.1 ∨
    (∃ a, Address.Denotes m.1 a) ∧ fault = .invalidEntry m.1 m.2

theorem readMember_eq_ok_iff {name : String} {count : Json} {a : Address} {entry : PageEntry} :
    readMember name count = .ok (a, entry) ↔
      Address.ofText? name = some a ∧ PageEntry.ofJson? count = some entry := by
  rw [readMember]
  split
  next hname => simp [hname]
  next b hname =>
    split
    next hcount => simp [hcount]
    next found hcount => simp [hname, hcount]

theorem reads_iff {m : String × Json} : Reads m ↔ ∃ e, readMember m.1 m.2 = .ok e := by
  rw [Reads, ← PageEntry.exists_ofJson?_iff]
  constructor
  · rintro ⟨⟨a, ha⟩, entry, hentry⟩
    exact ⟨(a, entry), readMember_eq_ok_iff.2 ⟨Address.denotes_iff.1 ha, hentry⟩⟩
  · rintro ⟨⟨a, entry⟩, hread⟩
    obtain ⟨ha, hentry⟩ := readMember_eq_ok_iff.1 hread
    exact ⟨⟨a, Address.denotes_iff.2 ha⟩, entry, hentry⟩

instance (m : String × Json) : Decidable (Reads m) :=
  match hread : readMember m.1 m.2 with
  | .ok e => .isTrue (reads_iff.2 ⟨e, hread⟩)
  | .error fault => .isFalse fun h => by
    obtain ⟨e, he⟩ := reads_iff.1 h
    rw [hread] at he
    cases he

theorem readMember_eq_error_iff {m : String × Json} {fault : Fault} :
    readMember m.1 m.2 = .error fault ↔ ¬ Reads m ∧ FaultOf m fault := by
  rw [reads_iff, FaultOf]
  simp only [Address.denotes_iff, readMember]
  cases Address.ofText? m.1 with
  | none => simp [eq_comm]
  | some a =>
    cases PageEntry.ofJson? m.2 with
    | none => simp [eq_comm]
    | some entry => simp

theorem readMembers_cons_of_ok {m : String × Json} {a : Address} {entry : PageEntry}
    (hread : readMember m.1 m.2 = .ok (a, entry)) (members : List (String × Json)) (page : Page) :
    readMembers (m :: members) page = readMembers members ⟨page.entries.insert a entry⟩ := by
  rw [readMembers, hread]
  rfl

theorem readMembers_cons_of_error {m : String × Json} {fault : Fault}
    (hread : readMember m.1 m.2 = .error fault) (members : List (String × Json)) (page : Page) :
    readMembers (m :: members) page = .error fault := by
  rw [readMembers, hread]
  rfl

theorem exists_readMembers_iff {members : List (String × Json)} {page : Page} :
    (∃ page', readMembers members page = .ok page') ↔ ∀ m ∈ members, Reads m := by
  induction members generalizing page with
  | nil => simp [readMembers]
  | cons m members ih =>
    rw [List.forall_mem_cons, reads_iff]
    cases hread : readMember m.1 m.2 with
    | ok e => simp [readMembers_cons_of_ok hread, ih]
    | error fault => simp [readMembers_cons_of_error hread]

/-- Reading fails on the first member that does not read. -/
theorem readMembers_eq_error_iff {members : List (String × Json)} {page : Page} {fault : Fault} :
    readMembers members page = .error fault ↔
      ∃ m, members.find? (fun m => ¬ Reads m) = some m ∧ FaultOf m fault := by
  induction members generalizing page with
  | nil => simp [readMembers]
  | cons m members ih =>
    cases hread : readMember m.1 m.2 with
    | ok e =>
      have hm : Reads m := reads_iff.2 ⟨e, hread⟩
      rw [readMembers_cons_of_ok hread, ih, List.find?_cons_of_neg (by simpa using hm)]
    | error found =>
      obtain ⟨hm, -⟩ := readMember_eq_error_iff.1 hread
      have hfault : FaultOf m fault ↔ found = fault := by
        rw [← Except.error.injEq, ← hread, readMember_eq_error_iff, and_iff_right hm]
      rw [readMembers_cons_of_error hread, List.find?_cons_of_pos (by simpa using hm)]
      simp [hfault]

/-- The last member whose name denotes the address. -/
def lastFor (a : Address) (members : List (String × Json)) : Option (String × Json) :=
  members.reverse.find? fun m => Address.Denotes m.1 a

theorem lastFor_cons (a : Address) (m : String × Json) (members : List (String × Json)) :
    lastFor a (m :: members) =
      (lastFor a members).or (if Address.Denotes m.1 a then some m else none) := by
  simp [lastFor]

theorem getElem?_readMembers {members : List (String × Json)} {page page' : Page}
    (h : readMembers members page = .ok page') {a : Address} {entry : PageEntry} :
    page'.entries[a]? = some entry ↔
      (∃ m, lastFor a members = some m ∧ PageEntry.ofJson? m.2 = some entry) ∨
      lastFor a members = none ∧ page.entries[a]? = some entry := by
  induction members generalizing page with
  | nil =>
    obtain rfl := Except.ok.inj h
    simp [lastFor]
  | cons m members ih =>
    obtain ⟨⟨b, found⟩, hread, hrest⟩ := Json.bind_eq_ok_iff.1 h
    obtain ⟨hname, hcount⟩ := readMember_eq_ok_iff.1 hread
    rw [ih hrest, lastFor_cons]
    -- A later member for the same address is put over this one.
    cases lastFor a members with
    | some m' => simp
    | none =>
      rw [Std.TreeMap.getElem?_insert]
      simp only [Std.LawfulEqOrd.compare_eq_iff_eq]
      by_cases hb : b = a
      · subst hb
        simp [Address.denotes_iff, hname, hcount]
      · simp [Address.denotes_iff, hname, hb]

/-! ## Objects in order -/

variable {members : List (String × Json)}

/-- A name before another in the order of an object. -/
def Before (m m' : String × Json) : Prop := Utf8.bytes m.1 < Utf8.bytes m'.1

theorem before_asymm (m m' : String × Json) (h : Before m m') : ¬ Before m' m :=
  List.lt_asymm h

theorem lastFor_eq_some_iff (hordered : (Json.object members).NamesInOrder) {a : Address}
    {m : String × Json} : lastFor a members = some m ↔ m ∈ members ∧ Address.Denotes m.1 a ∧
      ∀ m' ∈ members, Address.Denotes m'.1 a → m' = m ∨ Utf8.bytes m'.1 < Utf8.bytes m.1 := by
  have hrev : members.reverse.Pairwise fun m m' => Before m' m := List.pairwise_reverse.2 hordered
  rw [lastFor, find?_eq_some_iff_of_pairwise hrev fun m m' => before_asymm m' m]
  simp [Before]

theorem find?_not_reads_eq_some_iff (hordered : (Json.object members).NamesInOrder)
    {m : String × Json} : members.find? (fun m => ¬ Reads m) = some m ↔ m ∈ members ∧ ¬ Reads m ∧
      ∀ m' ∈ members, ¬ Reads m' → m' = m ∨ Utf8.bytes m.1 < Utf8.bytes m'.1 := by
  rw [find?_eq_some_iff_of_pairwise hordered before_asymm]
  simp

theorem getElem?_ofJson (hordered : (Json.object members).NamesInOrder) {page : Page}
    (h : ofJson (.object members) = .ok page) {a : Address} {entry : PageEntry} :
    page.entries[a]? = some entry ↔ ∃ m ∈ members, Address.Denotes m.1 a ∧
      m.2 = .number (.int entry.toInt) ∧
      ∀ m' ∈ members, Address.Denotes m'.1 a → m' = m ∨ Utf8.bytes m'.1 < Utf8.bytes m.1 := by
  rw [getElem?_readMembers h]
  simp only [lastFor_eq_some_iff hordered, PageEntry.ofJson?_eq_some_iff]
  simp [empty]

theorem ofJson_eq_error_iff (hordered : (Json.object members).NamesInOrder) {fault : Fault} :
    ofJson (.object members) = .error fault ↔ ∃ m ∈ members, (¬ Reads m ∧
      ∀ m' ∈ members, ¬ Reads m' → m' = m ∨ Utf8.bytes m.1 < Utf8.bytes m'.1) ∧
      FaultOf m fault := by
  rw [ofJson, readMembers_eq_error_iff]
  simp only [find?_not_reads_eq_some_iff hordered, and_assoc]

theorem ofJson_of_not_object {json : Json} (hjson : ∀ members, json ≠ .object members) :
    ofJson json = .error (.pageNotObject json) := by
  cases json with
  | object members => exact absurd rfl (hjson members)
  | _ => rfl

/-- Reading a page from a value, where the members of an object are in the order of their names. It
succeeds exactly for the objects whose every name denotes an address and whose every value is an
integer from minus one up, below `2 ^ 64`. The page then has an entry for each address that a name
denotes, and no other: by the value of the greatest name that denotes it, minus one for a subtree
with a page of its own, else the number of points. Where it fails, the fault is that of the first
member that does not read: of its name if that denotes nothing, whatever the value, and of its value
otherwise. Looking at a value as a signed word first and as an unsigned one then makes the same
entry. -/
theorem reading_of_members {json : Json} (hordered : json.NamesInOrder) :
    ((∃ page, ofJson json = .ok page) ↔
      ∃ members, json = .object members ∧ ∀ m ∈ members, Reads m) ∧
    (∀ members page, json = .object members → ofJson json = .ok page → ∀ a entry,
      page.entries[a]? = some entry ↔ ∃ m ∈ members, Address.Denotes m.1 a ∧
        m.2 = .number (.int entry.toInt) ∧
        ∀ m' ∈ members, Address.Denotes m'.1 a → m' = m ∨ Utf8.bytes m'.1 < Utf8.bytes m.1) ∧
    (∀ fault, ofJson json = .error fault ↔
      (∀ members, json ≠ .object members) ∧ fault = .pageNotObject json ∨
      ∃ members, json = .object members ∧ ∃ m ∈ members, (¬ Reads m ∧
        ∀ m' ∈ members, ¬ Reads m' → m' = m ∨ Utf8.bytes m.1 < Utf8.bytes m'.1) ∧
        FaultOf m fault) ∧
    ∀ value, PageEntry.ofViews? value = PageEntry.ofJson? value := by
  by_cases hobject : ∃ members, json = .object members
  · obtain ⟨members, rfl⟩ := hobject
    refine ⟨?_, ?_, fun fault => ?_, PageEntry.ofViews?_eq_ofJson?⟩
    · rw [ofJson, exists_readMembers_iff]
      simp
    · rintro _ page ⟨⟩ h a entry
      exact getElem?_ofJson hordered h
    · rw [ofJson_eq_error_iff hordered]
      simp
  · have hother : ∀ members, json ≠ .object members := not_exists.1 hobject
    rw [ofJson_of_not_object hother]
    refine ⟨?_, ?_, fun fault => ?_, PageEntry.ofViews?_eq_ofJson?⟩
    · simp [hother]
    · intro members page heq
      exact absurd heq (hother members)
    · simp [hother, eq_comm]

/-- Two names of one address, of which the greater one counts, and an object with two members that
do not read, of which the one with the smaller name is at fault. -/
theorem reading_of_aliases :
    let members : List (String × Json) :=
      [("01-0-0-0", .number (.int 5)), ("1-0-0-0", .number (.int (-1)))]
    let bad : List (String × Json) := [("00", .null), ("1-0-0-0", .number (.int (-2)))]
    Json.parse "\x7b\"1-0-0-0\": -1, \"01-0-0-0\": 5\x7d" = .ok (.object members) ∧
      (∃ page, ofJson (.object members) = .ok page ∧
        page.entries[(⟨1, ⟨0, 0, 0⟩⟩ : Address)]? = some .subtree) ∧
      (Json.object bad).NamesInOrder ∧ ofJson (.object bad) = .error (.malformedKey "00") := by
  intro members bad
  have hparse :
      Json.parse "\x7b\"1-0-0-0\": -1, \"01-0-0-0\": 5\x7d" = .ok (.object members) := rfl
  have hbytes : Utf8.bytes "01-0-0-0" < Utf8.bytes "1-0-0-0" := by decide
  have hbad : (Json.object bad).NamesInOrder := List.pairwise_pair.2 (by decide)
  obtain ⟨hreads, hentries, -, -⟩ := reading_of_members (Json.namesInOrder_of_parse hparse)
  obtain ⟨-, -, hfaults, -⟩ := reading_of_members hbad
  obtain ⟨page, hpage⟩ := hreads.2 ⟨members, rfl, by decide⟩
  refine ⟨hparse, ⟨page, hpage, ?_⟩, hbad, (hfaults _).2 (.inr ⟨bad, rfl, ("00", .null), ?_⟩)⟩
  · refine (hentries members page rfl hpage _ .subtree).2
      ⟨("1-0-0-0", .number (.int (-1))), by simp [members], by decide, rfl, fun m' hm' _ => ?_⟩
    rcases List.mem_pair.1 hm' with rfl | rfl
    · exact .inr hbytes
    · exact .inl rfl
  · have hname : ¬ ∃ a, Address.Denotes "00" a := by
      rintro ⟨a, ha⟩
      have hnone : Address.ofText? "00" = none := by decide
      rw [Address.denotes_iff, hnone] at ha
      cases ha
    refine ⟨by simp [bad], ⟨fun h => hname h.1, fun m' hm' _ => ?_⟩, .inl ⟨hname, rfl⟩⟩
    rcases List.mem_pair.1 hm' with rfl | rfl
    · exact .inl rfl
    · exact .inr (by decide)

end Page

end PointTiles
