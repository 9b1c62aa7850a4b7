import Mathlib.Data.Nat.Digits.Defs
import PointTiles.Key

/-! # Keys as text

Which texts are read as keys, and what is read from them.

* `Decimal.number`: what a run of digits denotes, each digit by its place. `word?_eq_some_iff`: the
  runs that are read as words.
* `pieces_eq_splitOn`: the pieces of a text are those of the list library, so that joining them
  gives the text again.
* `Address.Grammar`: four runs of digits, each of a number below `2 ^ 64`, joined by single dashes.
* `Address.ofText?_eq_some_iff`, `ofText?_text`: these texts are read, and no others; the text of an
  address is one of them.
* `Key.text_grammar`: the same for keys, with the fault where a text is none.
-/

namespace PointTiles
set_option autoImplicit false

-- Powers of numbers are those of the core library, whatever else is imported.
attribute [local instance (high)] instPowNat

/-! ## Runs of digits -/

namespace Decimal

/-- A nonempty run of the digits from `0` to `9`. -/
structure IsRun (cs : List Char) : Prop where
  nonempty : cs ≠ []
  digit : ∀ c ∈ cs, c.isDigit = true

/-- The number that a run of digits denotes in base ten, its last digit the one of lowest place. -/
def number (cs : List Char) : Nat := Nat.ofDigits 10 (cs.map digitValue).reverse

theorem number_cons (c : Char) (cs : List Char) :
    number (c :: cs) = digitValue c * 10 ^ cs.length + number cs := by
  rw [number, List.map_cons, List.reverse_cons, Nat.ofDigits_append, Nat.ofDigits_singleton,
    List.length_reverse, List.length_map, number]
  ring

theorem appendDigits_eq (n : Nat) (cs : List Char) :
    appendDigits n cs = n * 10 ^ cs.length + number cs := by
  induction cs generalizing n with
  | nil => simp [appendDigits, number]
  | cons c cs ih =>
    have hstep : appendDigits n (c :: cs) = appendDigits (10 * n + digitValue c) cs := rfl
    rw [hstep, ih, number_cons, List.length_cons]
    ring

theorem isRun_iff {cs : List Char} : IsRun cs ↔ cs ≠ [] ∧ cs.all Char.isDigit = true := by
  rw [List.all_eq_true]
  exact ⟨fun h => ⟨h.nonempty, h.digit⟩, fun h => ⟨h.1, h.2⟩⟩

theorem word?_eq_some_iff {cs : List Char} {w : UInt64} :
    word? cs = some w ↔ IsRun cs ∧ number cs = w.toNat := by
  have hread : appendDigits 0 cs = number cs := by
    rw [appendDigits_eq, Nat.zero_mul, Nat.zero_add]
  rw [word?, value?, hread]
  by_cases h : IsRun cs
  · simp only [if_pos (isRun_iff.1 h), h, true_and]
    constructor
    · intro hw
      obtain ⟨hlt, hsome⟩ := Option.ite_none_right_eq_some.1 hw
      obtain rfl := Option.some.inj hsome
      exact (UInt64.toNat_ofNat_of_lt' hlt).symm
    · intro hw
      rw [hw, if_pos w.toNat_lt, UInt64.ofNat_toNat]
  · simp only [if_neg (mt isRun_iff.2 h), h, false_and, reduceCtorEq]

theorem isRun_digits (n : Nat) : IsRun (digits n) := by
  constructor
  · exact Nat.toDigits_ne_nil
  · intro c hc
    exact Nat.isDigit_of_mem_toDigits (by decide) (by decide) hc

theorem number_digits (n : Nat) : number (digits n) = n := by
  have hread : appendDigits 0 (digits n) = n := Nat.ofDigitChars_ten_toDigits
  rw [appendDigits_eq, Nat.zero_mul, Nat.zero_add] at hread
  exact hread

theorem IsRun.dash_notMem {cs : List Char} (h : IsRun cs) : '-' ∉ cs := by
  intro hmem
  exact absurd (h.digit _ hmem) (by decide)

end Decimal

/-! ## Pieces -/

theorem pieces_eq_splitOn (separator : Char) (cs : List Char) :
    pieces separator cs = cs.splitOn separator := by
  induction cs with
  | nil => rfl
  | cons c cs ih =>
    rw [pieces, ih, List.splitOn_cons_eq_if_modifyHead]
    obtain ⟨piece, others, hsplit⟩ := List.exists_cons_of_ne_nil (List.splitOn_ne_nil separator cs)
    rw [hsplit]
    by_cases hc : c = separator
    · simp [hc]
    · simp [hc]

namespace Address

/-- The text is four runs of digits joined by single dashes, each run that of a number below
`2 ^ 64`. -/
structure Grammar (s : String) (runs : List (List Char)) : Prop where
  joined : s.toList = ['-'].intercalate runs
  four : runs.length = 4
  isRun : ∀ run ∈ runs, Decimal.IsRun run
  fits : ∀ run ∈ runs, Decimal.number run < 2 ^ 64

theorem Grammar.exists_four {s : String} {runs : List (List Char)} (h : Grammar s runs) :
    ∃ d x y z, runs = [d, x, y, z] :=
  match runs, h.four with
  | [d, x, y, z], _ => ⟨d, x, y, z, rfl⟩

theorem Grammar.splitOn_eq {s : String} {runs : List (List Char)} (h : Grammar s runs) :
    s.toList.splitOn '-' = runs := by
  obtain ⟨d, x, y, z, rfl⟩ := h.exists_four
  have hnone : ∀ run ∈ [d, x, y, z], '-' ∉ run := fun run hrun => (h.isRun run hrun).dash_notMem
  rw [h.joined]
  exact List.splitOn_intercalate '-' hnone (List.cons_ne_nil d [x, y, z])

theorem lt_of_mem_toNats {a : Address} {n : Nat} (h : n ∈ a.toNats) : n < 2 ^ 64 := by
  simp only [toNats, List.mem_cons, List.not_mem_nil, or_false] at h
  obtain rfl | rfl | rfl | rfl := h
  all_goals exact UInt64.toNat_lt _

theorem ofChars?_eq_some_iff {cs : List Char} {a : Address} :
    ofChars? cs = some a ↔ ∃ d x y z, cs.splitOn '-' = [d, x, y, z] ∧
      Decimal.word? d = some a.depth ∧ Decimal.word? x = some a.cell.x ∧
      Decimal.word? y = some a.cell.y ∧ Decimal.word? z = some a.cell.z := by
  rw [ofChars?, pieces_eq_splitOn]
  constructor
  · intro h
    split at h
    next d x y z hsplit =>
      simp only [Option.bind_eq_bind, Option.bind_eq_some_iff, Option.some.injEq] at h
      obtain ⟨depth, hdepth, x', hx, y', hy, z', hz, rfl⟩ := h
      exact ⟨d, x, y, z, hsplit, hdepth, hx, hy, hz⟩
    next => cases h
  · rintro ⟨d, x, y, z, hsplit, hdepth, hx, hy, hz⟩
    simp only [hsplit, hdepth, hx, hy, hz]
    rfl

/-- The texts that are read as addresses, and the numbers that are read. -/
theorem ofText?_eq_some_iff {s : String} {a : Address} :
    ofText? s = some a ↔ ∃ runs, Grammar s runs ∧ a.toNats = runs.map Decimal.number := by
  rw [ofText?, ofChars?_eq_some_iff]
  constructor
  · rintro ⟨d, x, y, z, hsplit, hdepth, hx, hy, hz⟩
    rw [Decimal.word?_eq_some_iff] at hdepth hx hy hz
    have hnumbers : a.toNats = [d, x, y, z].map Decimal.number := by
      simp [toNats, hdepth.2, hx.2, hy.2, hz.2]
    refine ⟨[d, x, y, z], ⟨?_, rfl, ?_, fun run hrun => ?_⟩, hnumbers⟩
    · rw [← hsplit, List.intercalate_splitOn]
    · simp [hdepth.1, hx.1, hy.1, hz.1]
    · apply lt_of_mem_toNats
      rw [hnumbers]
      exact List.mem_map_of_mem hrun
  · rintro ⟨runs, hruns, hnumbers⟩
    obtain ⟨d, x, y, z, rfl⟩ := hruns.exists_four
    simp only [toNats, List.map_cons, List.map_nil, List.cons.injEq, and_true] at hnumbers
    obtain ⟨hdepth, hx, hy, hz⟩ := hnumbers
    have hword : ∀ run ∈ [d, x, y, z], ∀ w : UInt64, w.toNat = Decimal.number run →
        Decimal.word? run = some w :=
      fun run hrun w hw => Decimal.word?_eq_some_iff.2 ⟨hruns.isRun run hrun, hw.symm⟩
    exact ⟨d, x, y, z, hruns.splitOn_eq, hword d (by simp) _ hdepth, hword x (by simp) _ hx,
      hword y (by simp) _ hy, hword z (by simp) _ hz⟩

theorem Grammar.exists_address {s : String} {runs : List (List Char)} (h : Grammar s runs) :
    ∃ a : Address, a.toNats = runs.map Decimal.number := by
  obtain ⟨d, x, y, z, rfl⟩ := h.exists_four
  have hword : ∀ run ∈ [d, x, y, z], (UInt64.ofNat (Decimal.number run)).toNat = Decimal.number run :=
    fun run hrun => UInt64.toNat_ofNat_of_lt' (h.fits run hrun)
  refine ⟨⟨.ofNat (Decimal.number d), .ofNat (Decimal.number x), .ofNat (Decimal.number y),
    .ofNat (Decimal.number z)⟩, ?_⟩
  simp [toNats, hword]

theorem grammar_text (a : Address) : Grammar a.text (a.toNats.map Decimal.digits) := by
  constructor
  · simp [text, chars, toNats, List.intercalate]
  · rfl
  · intro run hrun
    obtain ⟨n, -, rfl⟩ := List.mem_map.1 hrun
    exact Decimal.isRun_digits n
  · intro run hrun
    obtain ⟨n, hn, rfl⟩ := List.mem_map.1 hrun
    rw [Decimal.number_digits]
    exact lt_of_mem_toNats hn

/-- What is written is read back. -/
theorem ofText?_text (a : Address) : ofText? a.text = some a := by
  refine ofText?_eq_some_iff.2 ⟨a.toNats.map Decimal.digits, grammar_text a, ?_⟩
  simp [Decimal.number_digits, Function.comp_def]

end Address

namespace Key

variable {α : Type} [Coordinate α]

theorem ofText_eq_ok_iff {s : String} {key : Key α} :
    ofText s = .ok key ↔ Address.ofText? s = some key.address ∧ key.bounds = Box.zero := by
  rw [ofText]
  split
  next a ha =>
    rw [ha, Except.ok.injEq, Option.some.injEq]
    constructor
    · rintro rfl
      exact ⟨rfl, rfl⟩
    · rintro ⟨rfl, hbounds⟩
      rw [ofAddress, ← hbounds]
  next ha => simp [ha]

/-- Keys as text. Four nonempty runs of decimal digits joined by single dashes, where each run denotes
a number below `2 ^ 64`, are read as the key with these numbers for its depth and its cell, in this
order, and with the empty box; leading zeros do not matter. Every other text is refused, with the
whole of it in the fault. What is written for a key, whatever its numbers and its box, is read as an
equal key. -/
theorem text_grammar :
    (∀ s runs, Address.Grammar s runs → ∃ key : Key α, ofText s = .ok key ∧
      key.address.toNats = runs.map Decimal.number ∧ key.bounds = Box.zero) ∧
    (∀ s, (∀ runs, ¬ Address.Grammar s runs) →
      (ofText s : Except Fault (Key α)) = .error (.malformedKey s)) ∧
    ∀ key : Key α, ∃ read : Key α, ofText key.address.text = .ok read ∧ (read == key) = true := by
  refine ⟨fun s runs hruns => ?_, fun s hnone => ?_, fun key => ?_⟩
  · obtain ⟨a, ha⟩ := hruns.exists_address
    have hread : Address.ofText? s = some a := Address.ofText?_eq_some_iff.2 ⟨runs, hruns, ha⟩
    exact ⟨ofAddress a, ofText_eq_ok_iff.2 ⟨hread, rfl⟩, ha, rfl⟩
  · have hunread : Address.ofText? s = none := by
      rw [Option.eq_none_iff_forall_ne_some]
      intro a ha
      obtain ⟨runs, hruns, -⟩ := Address.ofText?_eq_some_iff.1 ha
      exact hnone runs hruns
    rw [ofText, hunread]
  · refine ⟨ofAddress key.address, ?_, ?_⟩
    · exact ofText_eq_ok_iff.2 ⟨Address.ofText?_text key.address, rfl⟩
    · exact beq_self_eq_true key.address

/-- Leading zeros do not matter, not even before the greatest word; a number that is no word does. -/
theorem text_grammar_greatest_word :
    let s := "007-0-0018446744073709551615-10"
    let runs := ["007".toList, "0".toList, "0018446744073709551615".toList, "10".toList]
    let beyond := "7-0-18446744073709551616-10"
    Address.Grammar s runs ∧ (∀ others, ¬ Address.Grammar beyond others) ∧
      (∃ key : Key Rat, ofText s = .ok key ∧ key.address = ⟨7, ⟨0, 18446744073709551615, 10⟩⟩) ∧
      (ofText beyond : Except Fault (Key Rat)) = .error (.malformedKey beyond) := by
  intro s runs beyond
  have hdigits : ∀ run ∈ runs, run ≠ [] ∧ run.all Char.isDigit = true := by decide
  have hruns : Address.Grammar s runs :=
    ⟨by decide, rfl, fun run hrun => Decimal.isRun_iff.2 (hdigits run hrun), by decide⟩
  have hnone : ∀ others, ¬ Address.Grammar beyond others := by
    intro others hothers
    obtain ⟨a, ha⟩ := hothers.exists_address
    have hread := Address.ofText?_eq_some_iff.2 ⟨others, hothers, ha⟩
    have hunread : Address.ofText? beyond = none := by decide
    rw [hunread] at hread
    cases hread
  obtain ⟨hread, hrefused, -⟩ := @text_grammar Rat _
  obtain ⟨key, hkey, hnumbers, -⟩ := hread s runs hruns
  refine ⟨hruns, hnone, ⟨key, hkey, Address.toNats_injective ?_⟩, hrefused beyond hnone⟩
  rw [hnumbers]
  decide

end Key

end PointTiles
