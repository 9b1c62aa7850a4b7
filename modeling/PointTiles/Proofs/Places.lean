import Mathlib.Data.List.Forall2

/-! # Places in lists

A list is cut at one of its places, and so are two lists related member by member. Setting or
erasing the place is then left to `simp`. Where every member has an answer, and only there, so has the
list.
-/

namespace PointTiles.Places
set_option autoImplicit false

variable {β γ : Type}

theorem exists_split {l : List β} {i : Nat} {b : β} (h : l[i]? = some b) :
    ∃ before after, l = before ++ b :: after ∧ before.length = i := by
  obtain ⟨hi, hb⟩ := List.getElem?_eq_some_iff.1 h
  refine ⟨l.take i, l.drop (i + 1), ?_, List.length_take_of_le (Nat.le_of_lt hi)⟩
  rw [← hb, List.getElem_cons_drop, List.take_append_drop]

theorem getElem?_split (before after : List β) (b : β) :
    (before ++ b :: after)[before.length]? = some b := by
  simp

theorem set_split (before after : List β) (b b' : β) :
    (before ++ b :: after).set before.length b' = before ++ b' :: after := by
  simp

theorem eraseIdx_split (before after : List β) (b : β) :
    (before ++ b :: after).eraseIdx before.length = before ++ after := by
  rw [List.eraseIdx_append_of_length_le (Nat.le_refl _), Nat.sub_self, List.eraseIdx_cons_zero]

/-- Two related lists are cut at the same place. -/
theorem forall₂_split {R : β → γ → Prop} {l : List β} {k : List γ} {i : Nat} {b : β}
    (h : List.Forall₂ R l k) (hb : l[i]? = some b) :
    ∃ before after c before' after', l = before ++ b :: after ∧ k = before' ++ c :: after' ∧
      before.length = i ∧ before'.length = i ∧ List.Forall₂ R before before' ∧ R b c ∧
      List.Forall₂ R after after' := by
  induction h generalizing i with
  | nil => simp at hb
  | @cons a c l k hr hrest ih =>
    cases i with
    | zero =>
      obtain rfl : a = b := by simpa using hb
      exact ⟨[], l, c, [], k, rfl, rfl, rfl, rfl, .nil, hr, hrest⟩
    | succ i =>
      obtain ⟨before, after, c', before', after', rfl, rfl, rfl, hlen, hbefore, hr', hafter⟩ :=
        ih (by simpa using hb)
      exact ⟨a :: before, after, c', c :: before', after', rfl, rfl, rfl, by simp [hlen],
        .cons hr hbefore, hr', hafter⟩

/-- A cut of one list cuts a related one. -/
theorem forall₂_cut {R : β → γ → Prop} {before after : List β} {b : β} {k : List γ}
    (h : List.Forall₂ R (before ++ b :: after) k) :
    ∃ before' c after', k = before' ++ c :: after' ∧ before'.length = before.length ∧
      List.Forall₂ R before before' ∧ R b c ∧ List.Forall₂ R after after' := by
  obtain ⟨left, right, c, left', right', hcut, hk, hlen, hlen', hleft, hc, hright⟩ :=
    forall₂_split h (getElem?_split before after b)
  obtain ⟨rfl, hrest⟩ := List.append_inj hcut hlen.symm
  obtain ⟨-, rfl⟩ := List.cons.inj hrest
  exact ⟨left', c, right', hk, hlen', hleft, hc, hright⟩

/-- What takes the place of a member is related to the same. -/
theorem forall₂_keep {R : β → γ → Prop} {before after : List β} {b b' : β} {k : List γ}
    (h : List.Forall₂ R (before ++ b :: after) k) (hb : ∀ c, R b c → R b' c) :
    List.Forall₂ R (before ++ b' :: after) k := by
  obtain ⟨before', c, after', rfl, -, hbefore, hc, hafter⟩ := forall₂_cut h
  exact List.rel_append hbefore (.cons (hb c hc) hafter)

theorem forall₂_replicate {R : β → γ → Prop} {b : β} {c : γ} (h : R b c) (n : Nat) :
    List.Forall₂ R (List.replicate n b) (List.replicate n c) := by
  induction n with
  | zero => exact .nil
  | succ n ih => exact .cons h ih

/-- What a filter keeps, beside what it makes of it. -/
theorem forall₂_filterMap (f : β → Option γ) (l : List β) :
    List.Forall₂ (fun b c => f b = some c) (l.filter fun b => (f b).isSome) (l.filterMap f) := by
  induction l with
  | nil => exact .nil
  | cons b l ih =>
    cases hb : f b with
    | none =>
      rw [List.filter_cons_of_neg (by simp [hb]), List.filterMap_cons_none hb]
      exact ih
    | some c =>
      rw [List.filter_cons_of_pos (by simp [hb]), List.filterMap_cons_some hb]
      exact .cons hb ih

/-- The answers for the members of a list, in their order; there are none where one is missing. -/
theorem mapM_eq_some_iff {f : β → Option γ} {l : List β} {k : List γ} :
    l.mapM f = some k ↔ List.Forall₂ (fun b c => f b = some c) l k := by
  induction l generalizing k with
  | nil => simp [eq_comm]
  | cons b l ih =>
    rw [List.mapM_cons, List.forall₂_cons_left_iff]
    simp only [Option.bind_eq_bind, Option.bind_eq_some_iff, ih]
    constructor
    · rintro ⟨c, hc, k', hk', hk⟩
      obtain rfl := Option.some.inj hk
      exact ⟨c, k', hc, hk', rfl⟩
    · rintro ⟨c, k', hc, hk', rfl⟩
      exact ⟨c, hc, k', hk', rfl⟩

/-- The answers for the members of a list, none of which fails. -/
theorem mapM_eq_ok {ε : Type} {f : β → Except ε γ} {g : β → γ} {l : List β}
    (h : ∀ b ∈ l, f b = .ok (g b)) : l.mapM f = .ok (l.map g) := by
  induction l with
  | nil => rfl
  | cons b l ih =>
    rw [List.forall_mem_cons] at h
    rw [List.mapM_cons, h.1, ih h.2]
    rfl

end PointTiles.Places
