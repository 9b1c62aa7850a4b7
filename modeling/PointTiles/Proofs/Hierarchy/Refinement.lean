import PointTiles.Hierarchy.Shared
import PointTiles.Proofs.Hierarchy.Contents
import PointTiles.Proofs.Merging

/-! # A hierarchy as a finite map

Threads that write to one hierarchy, in whatever order their calls come about, leave what the written
counts say: of the counts of one address the last.

* `lastWritten_append`, `isSome_lastWritten_iff`: lists of written counts.
* `Refines`: the hierarchy has for every address the count that was written last. Every entry that is
  merged keeps this, and with it every call, `Refines.perform`.
* `Refines.count_addresses`, `Refines.size`, `Refines.points`: what follows for its keys and its total.
* `Shared.refines_of_step`, `Shared.refines_of_run`: the threads keep it.
* `Shared.last_write_counts`: what the hierarchy answers then.
-/

namespace PointTiles.Hierarchy
set_option autoImplicit false

-- Powers of numbers are those of the core library, whatever else is imported.
attribute [local instance (high)] instPowNat

variable {α : Type}

/-! ## Written counts -/

theorem lastWritten_append (writes later : List (Address × UInt64)) (a : Address) :
    lastWritten (writes ++ later) a = (lastWritten later a).or (lastWritten writes a) := by
  rw [lastWritten, List.reverse_append, List.lookup_append, lastWritten, lastWritten]

theorem lastWritten_concat (writes : List (Address × UInt64)) (a b : Address) (n : UInt64) :
    lastWritten (writes ++ [(b, n)]) a = if b = a then some n else lastWritten writes a := by
  rw [lastWritten_append, lastWritten, List.reverse_singleton]
  by_cases hab : b = a
  · rw [if_pos hab, hab, List.lookup_cons_self, Option.some_or]
  · have hmiss : (a == b) = false := beq_eq_false_iff_ne.2 (Ne.symm hab)
    rw [if_neg hab, List.lookup_cons, hmiss]
    rfl

theorem isSome_lastWritten_iff {writes : List (Address × UInt64)} {a : Address} :
    (lastWritten writes a).isSome = true ↔ a ∈ writes.map Prod.fst := by
  simp only [lastWritten, List.lookup_isSome_iff, List.mem_reverse, beq_iff_eq, List.mem_map]
  exact ⟨fun ⟨w, hw, ha⟩ => ⟨w, hw, ha.symm⟩, fun ⟨w, hw, ha⟩ => ⟨w, hw, ha.symm⟩⟩

/-! ## Calls -/

/-- The hierarchy has what was written last, and nothing else. -/
def Refines (h : Hierarchy α) (writes : List (Address × UInt64)) : Prop :=
  ∀ a, h.counts a = lastWritten writes a

namespace Refines

variable {h : Hierarchy α} {writes : List (Address × UInt64)}

theorem empty : (Hierarchy.empty : Hierarchy α).Refines [] := by
  intro a
  simp [counts, Hierarchy.empty, lastWritten]

theorem insert (hr : h.Refines writes) (a : Address) (b : Box α) (n : UInt64) :
    Refines ⟨h.nodes.insert a ⟨b, n⟩⟩ (writes ++ [(a, n)]) := by
  intro c
  rw [lastWritten_concat, ← hr c, counts, Std.TreeMap.getElem?_insert]
  simp only [Std.LawfulEqOrd.compare_eq_iff_eq]
  split <;> rfl

theorem merge (hr : h.Refines writes) (key : Key α) (n : UInt64) :
    (h.merge key n).Refines (writes ++ [(key.address, n)]) :=
  hr.insert key.address (h.keptBounds key) n

theorem ofList (entries : List (Key α × UInt64)) :
    (Hierarchy.ofList entries).Refines (entries.map fun e => (e.1.address, e.2)) := by
  induction entries using List.reverseRecOn with
  | nil => exact empty
  | append_singleton entries e ih =>
    rw [Hierarchy.ofList, List.foldl_concat, List.map_append]
    exact ih.insert e.1.address e.1.bounds e.2

theorem origin (o : Origin α) : o.hierarchy.Refines o.writes := by
  cases o with
  | new => exact empty
  | ofList entries => exact ofList entries

variable [Coordinate α] {root : Box α}

/-- The entries up to the first that is in no grid are written one after the other. -/
theorem mergeEntries (hr : h.Refines writes) (entries : List (Address × PageEntry)) :
    (mergeEntries root entries h).1.Refines (writes ++ countsOf (soundEntries entries)) := by
  induction entries generalizing h writes with
  | nil => simpa [Hierarchy.mergeEntries, soundEntries, countsOf] using hr
  | cons e entries ih =>
    obtain ⟨a, entry⟩ := e
    by_cases ha : a.OfCell
    · rw [soundEntries_cons ha]
      cases entry with
      | points n =>
        have hnext := hr.merge (keyAt root a) n
        rw [keyAt_address root ha] at hnext
        rw [mergeEntries_points root ha]
        simpa [countsOf] using ih hnext
      | subtree =>
        rw [mergeEntries_subtree root ha]
        exact ih hr
    · obtain ⟨fault, hbad⟩ := mergeEntries_bad root ha entry entries h
      have hnone : soundEntries ((a, entry) :: entries) = [] := by
        rw [soundEntries, List.takeWhile_cons_of_neg (by simpa using ha)]
      rw [hbad, hnone]
      simpa [countsOf] using hr

/-- A call that succeeds writes all its counts. -/
theorem perform (hr : h.Refines writes) {call : Call α} {subtrees : List (Key α)}
    (hok : (call.perform h).2 = .ok subtrees) :
    (call.perform h).1.Refines (writes ++ call.writes) := by
  cases call with
  | merge key n => exact hr.merge key n
  | mergePage root page =>
    have hcells := (mergePage_eq_ok_iff.1 hok).1
    have hall : soundEntries page.toList = page.toList := Page.sound_eq_toList hcells
    have hentries : (h.mergePage root page).1.Refines (writes ++ countsOf (soundEntries page.toList)) :=
      hr.mergeEntries page.toList
    rw [hall] at hentries
    exact hentries

end Refines

theorem size_le_mergeEntries [Coordinate α] (root : Box α) (entries : List (Address × PageEntry))
    (h : Hierarchy α) : h.size ≤ (mergeEntries root entries h).1.size := by
  induction entries generalizing h with
  | nil => exact Nat.le_refl _
  | cons e entries ih =>
    obtain ⟨a, entry⟩ := e
    by_cases ha : a.OfCell
    · cases entry with
      | points n =>
        rw [mergeEntries_points root ha]
        exact (size_merge_le h (keyAt root a) n).trans (ih _)
      | subtree =>
        rw [mergeEntries_subtree root ha]
        exact ih h
    · obtain ⟨fault, hbad⟩ := mergeEntries_bad root ha entry entries h
      rw [hbad]

/-- No call takes an address out of a hierarchy, whether it succeeds or not. -/
theorem size_le_perform [Coordinate α] (h : Hierarchy α) (call : Call α) :
    h.size ≤ (call.perform h).1.size := by
  cases call with
  | merge key n => exact size_merge_le h key n
  | mergePage root page => exact size_le_mergeEntries root page.toList h

/-! ## Answers -/

section

variable {h : Hierarchy α} {writes : List (Address × UInt64)}

theorem Refines.addresses (hr : h.Refines writes) :
    (h.keys.map Key.address).toFinset = (writes.map Prod.fst).toFinset := by
  ext a
  rw [List.mem_toFinset, List.mem_toFinset, mem_addresses_iff, hr a, isSome_lastWritten_iff]

theorem Refines.count_addresses (hr : h.Refines writes) (a : Address) :
    (h.keys.map Key.address).count a = if a ∈ (writes.map Prod.fst).toFinset then 1 else 0 := by
  simp only [h.nodup_addresses.count, ← hr.addresses, List.mem_toFinset]

theorem Refines.size (hr : h.Refines writes) :
    h.size = (writes.map Prod.fst).toFinset.card := by
  rw [← hr.addresses, List.toFinset_card_of_nodup h.nodup_addresses, size_eq_length]

theorem Refines.isEmpty_iff (hr : h.Refines writes) : h.isEmpty = true ↔ writes = [] := by
  rw [Hierarchy.isEmpty_iff]
  constructor
  · intro hnone
    by_contra hne
    obtain ⟨w, hw⟩ := List.exists_mem_of_ne_nil writes hne
    have hwritten := isSome_lastWritten_iff.2 (List.mem_map_of_mem (f := Prod.fst) hw)
    rw [← hr, hnone] at hwritten
    cases hwritten
  · rintro rfl a
    exact hr a

theorem Refines.points (hr : h.Refines writes) :
    h.points = ∑ a ∈ (writes.map Prod.fst).toFinset, ((lastWritten writes a).getD 0).toNat := by
  rw [Hierarchy.points, hr.addresses]
  exact Finset.sum_congr rfl (fun a _ => by rw [hr a])

end

/-! ## Threads -/

namespace Shared

variable [Coordinate α] {s s' : Shared α} {i : Nat} {schedule : List Nat}

/-- A step is a call, made as a whole. -/
theorem made_of_step (hstep : s.step i = some s') :
    ∃ call : Call α, s'.hierarchy = (call.perform s.hierarchy).1 ∧
      s'.made = s.made ++ [(call, (call.perform s.hierarchy).2)] := by
  rw [step] at hstep
  split at hstep
  next call calls _ =>
    cases hstep
    exact ⟨call, rfl, rfl⟩
  next => cases hstep

/-- Nothing that was done is undone, not even by a call that fails. -/
theorem grows_of_step (hstep : s.step i = some s') :
    s.made <+: s'.made ∧ s.hierarchy.size ≤ s'.hierarchy.size := by
  obtain ⟨call, hhierarchy, hmade⟩ := made_of_step hstep
  constructor
  · rw [hmade]
    exact List.prefix_append _ _
  · rw [hhierarchy]
    exact size_le_perform s.hierarchy call

theorem grows_of_run (hrun : s.run schedule = some s') :
    s.made <+: s'.made ∧ s.hierarchy.size ≤ s'.hierarchy.size := by
  induction schedule generalizing s with
  | nil =>
    obtain rfl := Option.some.inj hrun
    exact ⟨List.prefix_rfl, Nat.le_refl _⟩
  | cons i schedule ih =>
    obtain ⟨next, hnext, hrest⟩ := Option.bind_eq_some_iff.1 hrun
    obtain ⟨hmade, hsize⟩ := grows_of_step hnext
    obtain ⟨hmade', hsize'⟩ := ih hrest
    exact ⟨hmade.trans hmade', hsize.trans hsize'⟩

variable {before : List (Address × UInt64)}

/-- What was written before the threads began comes first. -/
theorem refines_of_step (hr : s.hierarchy.Refines (before ++ s.writes))
    (hstep : s.step i = some s') (hmade : ∀ entry ∈ s'.made, ∃ subtrees, entry.2 = .ok subtrees) :
    s'.hierarchy.Refines (before ++ s'.writes) := by
  obtain ⟨call, hhierarchy, hcall⟩ := made_of_step hstep
  obtain ⟨subtrees, hok⟩ := hmade (call, (call.perform s.hierarchy).2) (by simp [hcall])
  have hwrites : s'.writes = s.writes ++ call.writes := by simp [writes, hcall]
  rw [hhierarchy, hwrites, ← List.append_assoc]
  exact hr.perform hok

theorem refines_of_run (hr : s.hierarchy.Refines (before ++ s.writes))
    (hrun : s.run schedule = some s')
    (hmade : ∀ entry ∈ s'.made, ∃ subtrees, entry.2 = .ok subtrees) :
    s'.hierarchy.Refines (before ++ s'.writes) := by
  induction schedule generalizing s with
  | nil =>
    obtain rfl := Option.some.inj hrun
    exact hr
  | cons i schedule ih =>
    obtain ⟨next, hnext, hrest⟩ := Option.bind_eq_some_iff.1 hrun
    have hsofar : ∀ entry ∈ next.made, ∃ subtrees, entry.2 = .ok subtrees :=
      fun entry hentry => hmade entry ((grows_of_run hrest).1.subset hentry)
    exact ih (refines_of_step hr hnext hsofar) hrest

/-- A hierarchy that was new, or made from a list, and to which threads have written since, in whatever
order their calls came about; every page was merged. A key has the count that was written last for its
address, whatever its box, and none was written if it has none. The keys are in strictly ascending
order, and each address written is that of one of them. There are as many as there are addresses
written, never fewer later on, and none if nothing was written. The total is the exact sum of the
counts if that is a word, and overflows if it is not; any hierarchy with the same counts has the same
total, however it came about. -/
theorem last_write_counts {origin : Origin α} {threads : List (List (Call α))}
    (hrun : (begin origin threads).run schedule = some s)
    (hmade : ∀ entry ∈ s.made, ∃ subtrees, entry.2 = .ok subtrees) :
    let writes := origin.writes ++ s.writes
    let written := (writes.map Prod.fst).toFinset
    let sum := ∑ a ∈ written, ((lastWritten writes a).getD 0).toNat
    (∀ key, s.hierarchy.count key = (lastWritten writes key.address).getD 0) ∧
    s.hierarchy.keys.Pairwise (fun a b => compare a b = .lt) ∧
    (∀ a, (s.hierarchy.keys.map Key.address).count a = if a ∈ written then 1 else 0) ∧
    s.hierarchy.size = written.card ∧
    (∀ later s', s.run later = some s' → s.hierarchy.size ≤ s'.hierarchy.size) ∧
    (s.hierarchy.isEmpty = true ↔ writes = []) ∧
    (sum < 2 ^ 64 → ∃ n, s.hierarchy.total = .ok n ∧ n.toNat = sum) ∧
    (2 ^ 64 ≤ sum → s.hierarchy.total = .error .additionOverflow) ∧
    ∀ other : Hierarchy α, (∀ key, other.count key = s.hierarchy.count key) →
      other.total = s.hierarchy.total := by
  intro writes written sum
  have hr : s.hierarchy.Refines writes := by
    refine refines_of_run ?_ hrun hmade
    rw [begin, Shared.writes, List.flatMap_nil, List.append_nil]
    exact Refines.origin origin
  have hsum : s.hierarchy.points = sum := hr.points
  refine ⟨fun key => ?_, keys_sorted _, hr.count_addresses, hr.size,
    fun later s' hlater => (grows_of_run hlater).2, hr.isEmpty_iff, fun hfits => ?_, fun hover => ?_,
    fun other hsame => ?_⟩
  · rw [count_eq, hr]
  · rw [← hsum] at hfits ⊢
    exact total_of_fits hfits
  · rw [← hsum] at hover
    exact total_of_overflow hover
  · apply total_eq_of_points
    apply points_eq_of_counts
    intro a
    have ha := hsame ⟨a, Box.zero⟩
    rwa [count_eq, count_eq] at ha

/-- A list that names the root twice, with different boxes, and two threads: one merges a page, the
other a key of that page, before and after it. The counts that are left are no word together. -/
theorem last_write_counts_overflowing :
    let root : Box Rat := ⟨⟨0, 8⟩, ⟨0, 8⟩, ⟨0, 8⟩⟩
    let child : Key Rat := .ofAddress ⟨1, ⟨1, 0, 0⟩⟩
    let page : Page := ⟨.ofList [((⟨0, ⟨0, 0, 0⟩⟩ : Address), PageEntry.points 7),
      (⟨1, ⟨0, 0, 0⟩⟩, .subtree), (⟨1, ⟨1, 0, 0⟩⟩, .points 5),
      (⟨2, ⟨3, 3, 3⟩⟩, .points 18446744073709551615)]⟩
    let origin : Origin Rat := .ofList [(.root root, 3), (.ofAddress .root, 4)]
    let threads : List (List (Call Rat)) :=
      [[.merge child 18446744073709551615, .merge child 6], [.mergePage root page]]
    ∃ s, (begin origin threads).run [0, 1, 0] = some s ∧
      (∀ entry ∈ s.made, ∃ subtrees, entry.2 = .ok subtrees) ∧
      s.hierarchy.count (.root root) = 7 ∧ s.hierarchy.count child = 6 ∧
      s.hierarchy.size = 3 ∧ s.hierarchy.total = .error .additionOverflow := by
  intro root child page origin threads
  have hview : ((begin origin threads).run [0, 1, 0]).map (fun s =>
      (s.writes, s.made.map fun entry => entry.2.isOk)) =
      some ([(⟨1, ⟨1, 0, 0⟩⟩, 18446744073709551615), (.root, 7), (⟨1, ⟨1, 0, 0⟩⟩, 5),
        (⟨2, ⟨3, 3, 3⟩⟩, 18446744073709551615), (⟨1, ⟨1, 0, 0⟩⟩, 6)], [true, true, true]) := by
    decide +kernel
  obtain ⟨s, hrun, hs⟩ := Option.map_eq_some_iff.1 hview
  obtain ⟨hwrites, hanswers⟩ := Prod.mk.inj hs
  have hmade : ∀ entry ∈ s.made, ∃ subtrees, entry.2 = .ok subtrees := by
    intro entry hentry
    have hok : entry.2.isOk = true := by
      have hmember := List.mem_map_of_mem (f := fun entry => entry.2.isOk) hentry
      rw [hanswers] at hmember
      simpa using hmember
    cases hanswer : entry.2 with
    | ok subtrees => exact ⟨subtrees, rfl⟩
    | error fault =>
      rw [hanswer] at hok
      cases hok
  obtain ⟨hcount, -, -, hsize, -, -, -, hover, -⟩ := last_write_counts hrun hmade
  rw [hwrites] at hcount hsize hover
  refine ⟨s, hrun, hmade, ?_, ?_, ?_, ?_⟩
  · rw [hcount]
    decide
  · rw [hcount]
    decide
  · rw [hsize]
    decide
  · exact hover (by decide)

end Shared

end PointTiles.Hierarchy
