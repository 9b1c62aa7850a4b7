import Mathlib.Tactic.SplitIfs
import PointTiles.Json.Reader

/-! # The order of names

The members of an object are in the order of their names. This order is by code point, which is that
of the names' bytes in UTF-8.

* `Utf8.bytes`: the bytes of a text. `Utf8.bytes_lt`: they are in the order of the texts.
* `Json.NamesInOrder`: the members of an object are in the order of the bytes of their names.
* `Json.sorted_insertMember`: a member is put where its name belongs.
* `Json.namesInOrder_of_parse`: so it is in every document that is read.
-/

namespace PointTiles
set_option autoImplicit false

-- Powers of numbers are those of the core library, whatever else is imported.
attribute [local instance (high)] instPowNat

/-! ## Characters in bytes

A character is written as a first byte, which tells how many bytes follow, and these bytes, six bits
of the character in each. -/

namespace Utf8

/-- How many bytes follow the first byte of a character. -/
def followers (v : Nat) : Nat :=
  if v ≤ 0x7f then 0 else if v ≤ 0x7ff then 1 else if v ≤ 0xffff then 2 else 3

/-- The first byte of a character that this many bytes follow, without bits of the character. -/
def mark : Nat → Nat
  | 0 => 0
  | 1 => 0xc0
  | 2 => 0xe0
  | _ => 0xf0

def lead (v : Nat) : Nat := v / 64 ^ followers v + mark (followers v)

/-- The last `k` bytes of a character. -/
def following : (k : Nat) → Nat → List UInt8
  | 0, _ => []
  | k + 1, v => UInt8.ofNat (v / 64 ^ k % 64 + 0x80) :: following k v

theorem codePoint_lt (c : Char) : c.val.toNat < 0x110000 := by
  have hvalid : c.val.toNat < 0xd800 ∨ 0xdfff < c.val.toNat ∧ c.val.toNat < 0x110000 := c.valid
  omega

theorem encodeChar_eq (c : Char) : String.utf8EncodeChar c =
    UInt8.ofNat (lead c.val.toNat) :: following (followers c.val.toNat) c.val.toNat := by
  have hmax := codePoint_lt c
  simp only [String.utf8EncodeChar, lead, followers]
  generalize c.val.toNat = v at hmax
  split_ifs with h1 h2 h3
  · simp [mark, following]
  · have hbits : v / 64 % 32 = v / 64 := by omega
    simp [mark, following, hbits]
  · have hbits : v / 4096 % 16 = v / 4096 := by omega
    simp [mark, following, hbits]
  · have hbits : v / 262144 % 8 = v / 262144 := by omega
    simp [mark, following, hbits]

theorem ofNat_lt {m n : Nat} (h : m < n) (hn : n < 256) : UInt8.ofNat m < UInt8.ofNat n := by
  rw [UInt8.lt_iff_toNat_lt, UInt8.toNat_ofNat', UInt8.toNat_ofNat']
  omega

theorem lead_lt {v : Nat} (hv : v < 0x110000) : lead v < 256 := by
  simp only [lead, followers]
  split_ifs <;> simp only [mark] <;> omega

theorem followers_le {v w : Nat} (h : v < w) : followers v ≤ followers w := by
  simp only [followers]
  split_ifs <;> omega

theorem lead_lt_of_followers_lt {v w : Nat} (h : followers v < followers w) : lead v < lead w := by
  simp only [lead, followers] at h ⊢
  split_ifs at h ⊢ <;> simp only [mark] <;> omega

/-- A greater character has a greater first byte, or its difference is in the bytes that follow. -/
theorem lead_cases {v w : Nat} (h : v < w) : lead v < lead w ∨
    lead v = lead w ∧ followers v = followers w ∧
      v / 64 ^ followers w = w / 64 ^ followers w := by
  rcases Nat.lt_or_eq_of_le (followers_le h) with hcount | hcount
  · exact .inl (lead_lt_of_followers_lt hcount)
  · -- With as many bytes, the first ones are in the order of what they hold of the characters.
    have hle : v / 64 ^ followers w ≤ w / 64 ^ followers w := Nat.div_le_div_right (Nat.le_of_lt h)
    rw [lead, lead, hcount]
    rcases Nat.lt_or_eq_of_le hle with hlt | heq
    · exact .inl (Nat.add_lt_add_right hlt _)
    · exact .inr ⟨by rw [heq], rfl, heq⟩

/-- Numbers that differ in their last digits only, in base 64, are in the order of these digits. -/
theorem following_lt {k v w : Nat} (hsame : v / 64 ^ k = w / 64 ^ k) (h : v < w)
    (bs cs : List UInt8) : following k v ++ bs < following k w ++ cs := by
  induction k with
  | zero =>
    rw [Nat.pow_zero, Nat.div_one, Nat.div_one] at hsame
    omega
  | succ k ih =>
    rw [Nat.pow_succ, ← Nat.div_div_eq_div_mul, ← Nat.div_div_eq_div_mul] at hsame
    have hle : v / 64 ^ k ≤ w / 64 ^ k := Nat.div_le_div_right (Nat.le_of_lt h)
    rw [following, following, List.cons_append, List.cons_append, List.cons_lt_cons_iff]
    rcases Nat.lt_or_eq_of_le hle with hlt | heq
    · exact .inl (ofNat_lt (by omega) (by omega))
    · exact .inr ⟨by rw [heq], ih heq⟩

theorem encodeChar_lt {c d : Char} (h : c < d) (bs cs : List UInt8) :
    String.utf8EncodeChar c ++ bs < String.utf8EncodeChar d ++ cs := by
  have hlt : c.val.toNat < d.val.toNat := UInt32.lt_iff_toNat_lt.1 h
  rw [encodeChar_eq, encodeChar_eq, List.cons_append, List.cons_append, List.cons_lt_cons_iff]
  rcases lead_cases hlt with hlead | ⟨hlead, hcount, hbits⟩
  · exact .inl (ofNat_lt hlead (lead_lt (codePoint_lt d)))
  · rw [hlead, hcount]
    exact .inr ⟨rfl, following_lt hbits hlt bs cs⟩

/-! ## Texts in bytes -/

/-- The bytes of a text in UTF-8. -/
def bytes (s : String) : List UInt8 := s.toUTF8.data.toList

theorem bytes_eq_flatMap (s : String) : bytes s = s.toList.flatMap String.utf8EncodeChar := by
  rw [bytes, String.toUTF8_eq_toByteArray, ← String.utf8Encode_toList, List.utf8Encode,
    List.data_toByteArray]

theorem flatMap_encodeChar_lt {cs ds : List Char} (h : cs < ds) :
    cs.flatMap String.utf8EncodeChar < ds.flatMap String.utf8EncodeChar := by
  induction cs generalizing ds with
  | nil =>
    cases ds with
    | nil => exact absurd h (List.not_lt_nil [])
    | cons d ds =>
      rw [List.flatMap_nil, List.flatMap_cons, encodeChar_eq, List.cons_append]
      exact List.nil_lt_cons _ _
  | cons c cs ih =>
    cases ds with
    | nil => exact absurd h (List.not_lt_nil _)
    | cons d ds =>
      rw [List.flatMap_cons, List.flatMap_cons]
      rcases List.cons_lt_cons_iff.1 h with hlt | ⟨rfl, hlt⟩
      · exact encodeChar_lt hlt _ _
      · exact List.append_left_lt (ih hlt)

theorem bytes_lt {s t : String} (h : s < t) : bytes s < bytes t := by
  rw [bytes_eq_flatMap, bytes_eq_flatMap]
  exact flatMap_encodeChar_lt h

end Utf8

/-! ## Objects -/

namespace Json

/-- The members of an object are in strictly increasing order of the bytes of their names. -/
def NamesInOrder : Json → Prop
  | .object members => members.Pairwise fun m m' => Utf8.bytes m.1 < Utf8.bytes m'.1
  | _ => True

theorem mem_of_mem_insertMember {name : String} {value : Json} {members : List (String × Json)}
    {m : String × Json} (h : m ∈ insertMember name value members) :
    m = (name, value) ∨ m ∈ members := by
  induction members with
  | nil => exact .inl (List.mem_singleton.1 h)
  | cons first members ih =>
    rw [insertMember] at h
    split_ifs at h
    · exact List.mem_cons.1 h
    · exact (List.mem_cons.1 h).imp_right (List.mem_cons_of_mem first)
    · rcases List.mem_cons.1 h with rfl | h
      · exact .inr List.mem_cons_self
      · exact (ih h).imp_right (List.mem_cons_of_mem first)

theorem sorted_insertMember {name : String} {value : Json} {members : List (String × Json)}
    (h : Sorted members) : Sorted (insertMember name value members) := by
  induction members with
  | nil => exact List.pairwise_singleton _ _
  | cons first members ih =>
    obtain ⟨hfirst, hrest⟩ := List.pairwise_cons.1 h
    rw [insertMember]
    split_ifs with hlt heq
    · refine List.pairwise_cons.2 ⟨fun m hm => ?_, h⟩
      rcases List.mem_cons.1 hm with rfl | hm
      · exact hlt
      · exact String.lt_trans hlt (hfirst m hm)
    · exact List.pairwise_cons.2 ⟨fun m hm => heq ▸ hfirst m hm, hrest⟩
    · refine List.pairwise_cons.2 ⟨fun m hm => ?_, ih hrest⟩
      rcases mem_of_mem_insertMember hm with rfl | hm
      · exact String.not_le.1 fun hle => heq (String.le_antisymm hle (String.not_lt.1 hlt))
      · exact hfirst m hm

theorem sorted_ofMembers (members : List (String × Json)) :
    Sorted (members.foldl (fun ms m => insertMember m.1 m.2 ms) []) := by
  suffices h : ∀ ms, Sorted ms → Sorted (members.foldl (fun ms m => insertMember m.1 m.2 ms) ms) from
    h [] List.Pairwise.nil
  induction members with
  | nil => exact fun _ hms => hms
  | cons m members ih => exact fun _ hms => ih _ (sorted_insertMember hms)

theorem namesInOrder_ofMembers (members : List (String × Json)) :
    (ofMembers members).NamesInOrder :=
  (sorted_ofMembers members).imp Utf8.bytes_lt

/-! ## Documents -/

theorem bind_eq_ok_iff {ε β γ : Type} {x : Except ε β} {f : β → Except ε γ} {c : γ} :
    (do let b ← x; f b) = .ok c ↔ ∃ b, x = .ok b ∧ f b = .ok c := by
  cases x with
  | error e =>
    constructor
    · intro h
      cases h
    · rintro ⟨b, hb, -⟩
      cases hb
  | ok b =>
    constructor
    · exact fun h => ⟨b, rfl, h⟩
    · rintro ⟨_, hb, h⟩
      obtain rfl := Except.ok.inj hb
      exact h

theorem eq_of_literal {β : Type} {found v : β} {word cs rest : List Char}
    (h : literal v word cs = .ok (found, rest)) : found = v := by
  induction word generalizing cs with
  | nil => exact (Prod.mk.inj (Except.ok.inj h)).1.symm
  | cons w ws ih =>
    cases cs with
    | nil => cases h
    | cons c cs =>
      rw [literal] at h
      split_ifs at h
      exact ih h

theorem namesInOrder_of_scalar {cs rest : List Char} {json : Json}
    (h : scalar cs = .ok (json, rest)) : json.NamesInOrder := by
  rw [scalar] at h
  split at h
  · cases h
  · exact eq_of_literal h ▸ trivial
  · exact eq_of_literal h ▸ trivial
  · exact eq_of_literal h ▸ trivial
  · obtain ⟨_, -, h⟩ := bind_eq_ok_iff.1 h
    cases h
    trivial
  · split_ifs at h
    obtain ⟨_, -, h⟩ := bind_eq_ok_iff.1 h
    cases h
    trivial

theorem namesInOrder_of_value {levels : Nat} {cs rest : List Char} {json : Json}
    (h : value levels cs = .ok (json, rest)) : json.NamesInOrder := by
  cases levels with
  | zero => exact namesInOrder_of_scalar h
  | succ levels =>
    rw [value] at h
    split at h
    · obtain ⟨_, -, h⟩ := bind_eq_ok_iff.1 h
      cases h
      trivial
    · obtain ⟨_, -, h⟩ := bind_eq_ok_iff.1 h
      cases h
      exact namesInOrder_ofMembers _
    · exact namesInOrder_of_scalar h

/-- The members of a document that is read are in the order of the bytes of their names. -/
theorem namesInOrder_of_parse {text : String} {json : Json} (h : parse text = .ok json) :
    json.NamesInOrder := by
  obtain ⟨⟨found, rest⟩, hread, h⟩ := bind_eq_ok_iff.1 h
  change (if (skipBlanks rest).isEmpty then Except.ok found else _) = Except.ok json at h
  split_ifs at h
  cases h
  exact namesInOrder_of_value hread

end Json

end PointTiles
