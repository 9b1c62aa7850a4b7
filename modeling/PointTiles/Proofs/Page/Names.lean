import Mathlib.Data.List.Dedup
import PointTiles.Proofs.Page.Reading

/-! # The names of a page

How many entries a page has, where several names denote one address.

* `Decimal.Canonical`: a run of digits with no leading zero. `digits_number_eq_iff`: these runs are
  the ones that are written.
* `Address.text_eq_iff`: the names that are written for the address that they denote.
* `Page.addresses`: what the names of an object denote. `mem_entries_iff`, `size_eq_length_dedup`: a
  page has one entry from each of these addresses.
* `Page.size_by_names`: a page has as many entries as the object has members exactly where no two
  names denote one address. `size_of_aliases`: an object where two do.
-/

namespace PointTiles
set_option autoImplicit false

/-! ## Leading zeros -/

namespace Decimal

/-- The digit `0` alone, or a run that starts with another digit. -/
def Canonical (run : List Char) : Prop := run = ['0'] ∨ run.head? ≠ some '0'

instance (run : List Char) : Decidable (Canonical run) :=
  inferInstanceAs (Decidable (_ ∨ _))

theorem digitChar_digitValue {c : Char} (hc : c.isDigit = true) :
    digitValue c < 10 ∧ Nat.digitChar (digitValue c) = c := by
  obtain ⟨hmin, hmax⟩ := Char.isDigit_iff_toNat.1 hc
  change 48 ≤ c.toNat at hmin
  change c.toNat ≤ 57 at hmax
  have hlt : digitValue c < 10 := by
    change c.toNat - 48 < 10
    omega
  refine ⟨hlt, Char.toNat_inj.1 ?_⟩
  rw [Nat.toNat_digitChar_of_lt_ten hlt]
  exact Nat.add_sub_of_le hmin

theorem digits_digitValue {c : Char} (hc : c.isDigit = true) : digits (digitValue c) = [c] := by
  obtain ⟨hlt, hchar⟩ := digitChar_digitValue hc
  rw [digits, Nat.toDigits_of_lt_base hlt, hchar]

/-- Digits that are read onto a positive number are those written after it. -/
theorem digits_appendDigits {n : Nat} {cs : List Char} (hn : 0 < n)
    (hcs : ∀ c ∈ cs, c.isDigit = true) : digits (appendDigits n cs) = digits n ++ cs := by
  induction cs generalizing n with
  | nil => exact (List.append_nil _).symm
  | cons c cs ih =>
    rw [List.forall_mem_cons] at hcs
    have hstep : appendDigits n (c :: cs) = appendDigits (10 * n + digitValue c) cs := rfl
    have hdigits : digits n ++ [c] = digits (10 * n + digitValue c) := by
      rw [← digits_digitValue hcs.1]
      exact Nat.toDigits_append_toDigits (by decide) hn (digitChar_digitValue hcs.1).1
    rw [hstep, ih (by omega) hcs.2, ← hdigits, List.append_assoc, List.singleton_append]

theorem canonical_digits (n : Nat) : Canonical (digits n) := by
  induction n using Nat.strongRecOn with
  | ind n ih =>
    rcases Nat.lt_or_ge n 10 with hlt | hge
    · rw [digits, Nat.toDigits_of_lt_base hlt]
      by_cases hn : n = 0
      · exact .inl (by rw [hn]; rfl)
      · exact .inr (by simpa using hn)
    · have hpos : n / 10 ≠ 0 := by omega
      rcases ih (n / 10) (by omega) with hzero | hhead
      · have hnumber : number (digits (n / 10)) = number ['0'] := congrArg number hzero
        rw [number_digits] at hnumber
        exact absurd hnumber hpos
      · rw [digits] at hhead
        rw [digits, Nat.toDigits_of_base_le (by decide) hge]
        exact .inr (by rwa [List.head?_append_of_ne_nil _ Nat.toDigits_ne_nil])

theorem digits_number_eq_iff {run : List Char} (hrun : IsRun run) :
    digits (number run) = run ↔ Canonical run := by
  constructor
  · intro heq
    rw [← heq]
    exact canonical_digits _
  · rintro (rfl | hhead)
    · decide
    · obtain ⟨c, cs, rfl⟩ := List.exists_cons_of_ne_nil hrun.nonempty
      obtain ⟨hc, hcs⟩ := List.forall_mem_cons.1 hrun.digit
      have hpos : 0 < digitValue c := by
        refine Nat.pos_of_ne_zero fun hzero => hhead ?_
        rw [List.head?_cons, ← (digitChar_digitValue hc).2, hzero]
        rfl
      have hnumber : number (c :: cs) = appendDigits (digitValue c) cs := by
        rw [appendDigits_eq, number_cons]
      rw [hnumber, digits_appendDigits hpos hcs, digits_digitValue hc, List.singleton_append]

end Decimal

namespace Address

/-- A name is what is written for its address where no run of digits in it has a leading zero. -/
theorem text_eq_iff {name : String} {a : Address} (h : Denotes name a) :
    a.text = name ↔ ∀ run ∈ name.toList.splitOn '-', Decimal.Canonical run := by
  obtain ⟨runs, hruns, hnumbers⟩ := h
  have hsame : a.text = name ↔ a.toNats.map Decimal.digits = runs := by
    constructor
    · rintro rfl
      rw [← (grammar_text a).splitOn_eq, hruns.splitOn_eq]
    · intro heq
      apply String.toList_injective
      rw [(grammar_text a).joined, heq, hruns.joined]
  have hwritten : (runs.map Decimal.number).map Decimal.digits = runs ↔
      ∀ run ∈ runs, Decimal.digits (Decimal.number run) = run := by
    rw [List.map_map]
    simpa using @List.map_inj_left _ _ runs (Decimal.digits ∘ Decimal.number) id
  rw [hsame, hnumbers, hwritten, hruns.splitOn_eq]
  exact forall₂_congr fun run hrun => Decimal.digits_number_eq_iff (hruns.isRun run hrun)

end Address

/-! ## Sizes -/

namespace Page

variable {members : List (String × Json)} {page : Page}

/-- The addresses that the names of the members denote, one from each name that denotes any. -/
def addresses (members : List (String × Json)) : List Address :=
  members.filterMap fun m => Address.ofText? m.1

theorem mem_addresses_iff {a : Address} :
    a ∈ addresses members ↔ ∃ m ∈ members, Address.Denotes m.1 a := by
  simp only [addresses, List.mem_filterMap, Address.denotes_iff]

theorem reads_of_ok (hok : ofJson (.object members) = .ok page) : ∀ m ∈ members, Reads m :=
  exists_readMembers_iff.1 ⟨page, hok⟩

theorem length_addresses (hok : ofJson (.object members) = .ok page) :
    (addresses members).length = members.length := by
  refine List.filterMap_length_eq_length.2 fun m hm => ?_
  obtain ⟨a, ha⟩ := (reads_of_ok hok m hm).1
  rw [Address.denotes_iff.1 ha, Option.isSome_some]

theorem lastFor_isSome_iff {a : Address} :
    (lastFor a members).isSome = true ↔ a ∈ addresses members := by
  rw [mem_addresses_iff]
  simp [lastFor]

/-- The page has an entry from each address that a name denotes. -/
theorem mem_entries_iff (hok : ofJson (.object members) = .ok page) {a : Address} :
    a ∈ page.entries ↔ a ∈ addresses members := by
  rw [Std.TreeMap.mem_iff_isSome_getElem?, ← lastFor_isSome_iff]
  simp only [Option.isSome_iff_exists, getElem?_readMembers hok]
  constructor
  · rintro ⟨entry, ⟨m, hlast, -⟩ | ⟨-, hempty⟩⟩
    · exact ⟨m, hlast⟩
    · cases hempty
  · rintro ⟨m, hlast⟩
    have hm : m ∈ members := List.mem_reverse.1 (List.mem_of_find?_eq_some hlast)
    obtain ⟨entry, hentry⟩ := PageEntry.exists_ofJson?_iff.2 (reads_of_ok hok m hm).2
    exact ⟨entry, .inl ⟨m, hlast, hentry⟩⟩

theorem size_eq_length_dedup (hok : ofJson (.object members) = .ok page) :
    page.size = (addresses members).dedup.length := by
  have hsame : page.entries.keys.Perm (addresses members).dedup := by
    rw [List.perm_ext_iff_of_nodup Std.TreeMap.nodup_keys (List.nodup_dedup _)]
    intro a
    rw [Std.TreeMap.mem_keys, mem_entries_iff hok, List.mem_dedup]
  rw [size, ← Std.TreeMap.length_keys, hsame.length_eq]

theorem size_eq_length_iff (hok : ofJson (.object members) = .ok page) :
    page.size = members.length ↔ (addresses members).Nodup := by
  rw [size_eq_length_dedup hok, ← length_addresses hok, (List.dedup_sublist _).length_eq,
    List.dedup_eq_self]

theorem nodup_addresses_iff : (addresses members).Nodup ↔
    members.Pairwise fun m m' => ∀ a, Address.Denotes m.1 a → ¬ Address.Denotes m'.1 a := by
  rw [addresses, List.Nodup, List.pairwise_filterMap]
  simp only [Address.denotes_iff]
  constructor
  · exact List.Pairwise.imp fun hne a ha ha' => hne a ha a ha' rfl
  · refine List.Pairwise.imp fun hne a ha b hb heq => ?_
    rw [← heq] at hb
    exact hne a ha hb

theorem nodup_addresses_of_canonical (hnames : (members.map Prod.fst).Nodup)
    (hzeros : ∀ m ∈ members, ∀ run ∈ m.1.toList.splitOn '-', Decimal.Canonical run) :
    (addresses members).Nodup := by
  rw [nodup_addresses_iff]
  refine (List.pairwise_map.1 hnames).imp_of_mem fun hm hm' hne a ha ha' => hne ?_
  rw [← (Address.text_eq_iff ha).2 (hzeros _ hm), ← (Address.text_eq_iff ha').2 (hzeros _ hm')]

/-- How many entries a page has. It has one for each address that a name denotes, so at most as many
as the object has members, and as many exactly where no two names denote one address. A name that is
read need not be the one that is written for its address: it is where no run of digits in it has a
leading zero. Where that holds of all names of an object, and no two of them are equal, no entry is
lost. -/
theorem size_by_names (hok : ofJson (.object members) = .ok page) :
    page.size = (addresses members).dedup.length ∧ page.size ≤ members.length ∧
      (page.size = members.length ↔
        members.Pairwise fun m m' => ∀ a, Address.Denotes m.1 a → ¬ Address.Denotes m'.1 a) ∧
      (∀ m ∈ members, ∃ a ∈ page.entries, Address.Denotes m.1 a ∧
        (a.text = m.1 ↔ ∀ run ∈ m.1.toList.splitOn '-', Decimal.Canonical run)) ∧
      ((members.map Prod.fst).Nodup →
        (∀ m ∈ members, ∀ run ∈ m.1.toList.splitOn '-', Decimal.Canonical run) →
        page.size = members.length) := by
  have hsize : page.size = (addresses members).dedup.length := size_eq_length_dedup hok
  refine ⟨hsize, ?_, ?_, fun m hm => ?_, fun hnames hzeros => ?_⟩
  · rw [hsize, ← length_addresses hok]
    exact (List.dedup_sublist _).length_le
  · rw [size_eq_length_iff hok, nodup_addresses_iff]
  · obtain ⟨a, ha⟩ := (reads_of_ok hok m hm).1
    have hmem : a ∈ page.entries := (mem_entries_iff hok).2 (mem_addresses_iff.2 ⟨m, hm, ha⟩)
    exact ⟨a, hmem, ha, Address.text_eq_iff ha⟩
  · exact (size_eq_length_iff hok).2 (nodup_addresses_of_canonical hnames hzeros)

/-- Three names of two addresses, and the two that are written for them. -/
theorem size_by_names_of_three :
    let members : List (String × Json) :=
      [("0-0-0-0", .number (.int 9)), ("01-0-0-0", .number (.int 5)), ("1-0-0-0", .number (.int 7))]
    ∃ page page', ofJson (.object members) = .ok page ∧ page.size = 2 ∧
      ofJson (.object (members.eraseIdx 1)) = .ok page' ∧ page'.size = 2 := by
  intro members
  have hok : ∃ page, ofJson (.object members) = .ok page :=
    exists_readMembers_iff.2 (by decide)
  have hok' : ∃ page, ofJson (.object (members.eraseIdx 1)) = .ok page :=
    exists_readMembers_iff.2 (by decide)
  obtain ⟨page, hpage⟩ := hok
  obtain ⟨page', hpage'⟩ := hok'
  obtain ⟨hsize, -⟩ := size_by_names hpage
  obtain ⟨-, -, -, -, hall⟩ := size_by_names hpage'
  refine ⟨page, page', hpage, ?_, hpage', hall (by decide) (by decide)⟩
  rw [hsize]
  decide

/-- Two names of one address make one entry. The name that comes first in the order is lost, and it
is not what is written for the address that it denotes. -/
theorem size_of_aliases :
    let members : List (String × Json) :=
      [("01-0-0-0", .number (.int 5)), ("1-0-0-0", .number (.int 7))]
    let a : Address := ⟨1, ⟨0, 0, 0⟩⟩
    (∃ page, ofJson (.object members) = .ok page ∧ page.toList = [(a, .points 7)] ∧
      page.size = 1 ∧ members.length = 2) ∧
      Address.ofText? "01-0-0-0" = some a ∧ a.text = "1-0-0-0" := by
  intro members a
  exact ⟨⟨_, rfl, rfl, rfl, rfl⟩, by decide, by decide⟩

end Page

end PointTiles
