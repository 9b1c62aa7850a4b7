import PointTiles.Proofs.Selection

/-! # How deep a selection goes

A search tests the depth of a node before it puts the node's octants on the stack. Nothing tests the
depth of the start key.

* `Query.KeepsDepth`: the key is no deeper than a grid may be, and no deeper than the limit.
* `turn_cases`: what one turn of a search does.
* `Limited`: the keys of a search keep the depth, the start key apart. `Limited.turn`,
  `Limited.turns`: a turn keeps this, and so does any number of them.
* `eq_or_keepsDepth_of_mem_select`: so what is selected is the start key, or keeps the depth.
* `visit_of_not_passable`, `select_of_too_deep`: nothing is found below a key that may not be passed.
* `select_depths`: the depths of a selection, and when all of them are kept.
  `select_deeper_than_allowed`: start keys that do not keep them.
-/

namespace PointTiles
set_option autoImplicit false

variable {α : Type}

/-- The key is no deeper than a grid may be, and no deeper than the limit if there is one. -/
def Query.KeepsDepth (query : Query α) (key : Key α) : Prop :=
  key.address.depth.toNat ≤ Address.maxDepth ∧
    ∀ limit, query.depthLimit = some limit → key.address.depth ≤ limit

namespace Hierarchy

variable [Coordinate α] {h : Hierarchy α} {query : Query α} {start key : Key α}

/-! ## One turn -/

omit [Coordinate α] in
theorem passable_iff {query : Query α} {key : Key α} :
    Passable query key ↔ key.address.depth.toNat < Address.maxDepth ∧ opens query key = true := by
  rw [Passable, opens_iff]

/-- The next key is dropped, or found alone, or found with its octants put on the stack. -/
theorem turn_cases {search next : Search α} (hturn : h.turn query search = some next) :
    ∃ key rest, search.stack = key :: rest ∧
      ((¬ h.Worth query key ∧ next = ⟨rest, search.found⟩) ∨
        (h.Worth query key ∧ ¬ Passable query key ∧ next = ⟨rest, search.found ++ [key]⟩) ∨
        (h.Worth query key ∧ Passable query key ∧
          next = ⟨key.octants.reverse ++ rest, search.found ++ [key]⟩)) := by
  obtain ⟨stack, found⟩ := search
  cases stack with
  | nil => cases hturn
  | cons key rest =>
    refine ⟨key, rest, rfl, ?_⟩
    rw [← admits_iff, passable_iff]
    simp only [turn] at hturn
    split at hturn
    · rename_i hadmits
      split at hturn
      · rename_i hpass
        exact .inr (.inr ⟨hadmits, hpass, (Option.some.inj hturn).symm⟩)
      · rename_i hpass
        exact .inr (.inl ⟨hadmits, hpass, (Option.some.inj hturn).symm⟩)
    · rename_i hadmits
      exact .inl ⟨hadmits, (Option.some.inj hturn).symm⟩

/-- A key that may be passed has octants no deeper than allowed. -/
theorem keepsDepth_octant (hpass : Passable query key) (o : Octant) :
    query.KeepsDepth (key.octant o) := by
  obtain ⟨hdepth, hlimit⟩ := hpass
  rw [Address.maxDepth] at hdepth
  have hchild : (key.octant o).address.depth.toNat = key.address.depth.toNat + 1 := by
    rw [Key.octant_address, Address.child_depth]
    omega
  refine ⟨?_, fun limit hsome => ?_⟩
  · rw [hchild, Address.maxDepth]
    omega
  · have hlt := hlimit limit hsome
    rw [UInt64.lt_iff_toNat_lt] at hlt
    rw [UInt64.le_iff_toNat_le, hchild]
    omega

/-- Every key of a search from `start` is that key, or keeps the depth. -/
structure Limited (query : Query α) (start : Key α) (search : Search α) : Prop where
  stack : ∀ key ∈ search.stack, key = start ∨ query.KeepsDepth key
  found : ∀ key ∈ search.found, key = start ∨ query.KeepsDepth key

namespace Limited

variable {search next : Search α}

theorem turn (hl : Limited query start search) (hturn : h.turn query search = some next) :
    Limited query start next := by
  obtain ⟨key, rest, hstack, hcases⟩ := turn_cases hturn
  have hkeys := hl.stack
  rw [hstack, List.forall_mem_cons] at hkeys
  obtain ⟨hkey, hrest⟩ := hkeys
  have hfound : ∀ node ∈ search.found ++ [key], node = start ∨ query.KeepsDepth node := by
    rw [List.forall_mem_append, List.forall_mem_singleton]
    exact ⟨hl.found, hkey⟩
  rcases hcases with ⟨-, rfl⟩ | ⟨-, -, rfl⟩ | ⟨-, hpass, rfl⟩
  · exact ⟨hrest, hl.found⟩
  · exact ⟨hrest, hfound⟩
  · -- What is new on the stack are octants, and these were tested before.
    refine ⟨?_, hfound⟩
    rw [List.forall_mem_append]
    refine ⟨fun node hnode => .inr ?_, hrest⟩
    obtain ⟨o, -, rfl⟩ := List.mem_map.1 (List.mem_reverse.1 hnode)
    exact keepsDepth_octant hpass o

theorem turns (hl : Limited query start search) (hturns : h.Turns query search next) :
    Limited query start next := by
  induction hturns with
  | refl => exact hl
  | tail _ hturn ih => exact ih.turn hturn

end Limited

/-! ## Selections -/

/-- What is selected is the start key, or keeps the depth. -/
theorem eq_or_keepsDepth_of_mem_select (hmem : key ∈ h.select start query) :
    key = start ∨ query.KeepsDepth key := by
  obtain ⟨found, hturns, hselect⟩ := search_ends h start query
  have hbegin : Limited query start ⟨[start], []⟩ :=
    ⟨fun node hnode => .inl (List.mem_singleton.1 hnode), nofun⟩
  rw [← hselect, List.mem_mergeSort] at hmem
  exact (hbegin.turns hturns).found key hmem

theorem visit_of_not_passable {levels : Nat} (hlevels : levels = levelsBelow key)
    (hpass : ¬ Passable query key) :
    h.visit query levels key = if h.admits query key then [key] else [] := by
  cases levels with
  | zero => rw [visit]
  | succ levels =>
    have hdepth : key.address.depth.toNat < Address.maxDepth := by
      rw [levelsBelow] at hlevels
      omega
    have hclosed : ¬ opens query key = true := fun hopens => hpass (passable_iff.2 ⟨hdepth, hopens⟩)
    rw [visit, if_neg hclosed]

omit [Coordinate α] in
theorem keepsDepth_of_passable (hpass : Passable query key) : query.KeepsDepth key :=
  ⟨Nat.le_of_lt hpass.1, fun limit hsome => UInt64.le_of_lt (hpass.2 limit hsome)⟩

theorem select_of_too_deep (hdeep : ¬ query.KeepsDepth start) :
    h.select start query = if h.admits query start then [start] else [] := by
  rw [select, visit_of_not_passable rfl (mt keepsDepth_of_passable hdeep)]
  split <;> simp

/-- What is selected below the start key is never deeper than the deepest grid, nor deeper than the
limit. The start key itself is selected however deep it is. So the depth is kept by a whole selection
exactly where the start key keeps it or is not worth selecting; from a start key that is worth
selecting but too deep, the selection is that key alone. -/
theorem select_depths (h : Hierarchy α) (start : Key α) (query : Query α) :
    (∀ key ∈ h.select start query, key = start ∨ query.KeepsDepth key) ∧
    ((∀ key ∈ h.select start query, query.KeepsDepth key) ↔
      (h.Worth query start → query.KeepsDepth start)) ∧
    (h.Worth query start → ¬ query.KeepsDepth start → h.select start query = [start]) := by
  have halone : h.Worth query start → ¬ query.KeepsDepth start → h.select start query = [start] := by
    intro hworth hdeep
    rw [select_of_too_deep hdeep, if_pos ((admits_iff h query start).2 hworth)]
  refine ⟨fun key hmem => eq_or_keepsDepth_of_mem_select hmem, ?_, halone⟩
  constructor
  · intro hall hworth
    by_contra hdeep
    have hmem : start ∈ h.select start query := by
      rw [halone hworth hdeep]
      exact List.mem_singleton_self start
    exact hdeep (hall start hmem)
  · intro hstart key hmem
    rcases eq_or_keepsDepth_of_mem_select hmem with rfl | hkeeps
    · obtain ⟨path, hreaches⟩ := (mem_select h key query key).1 hmem
      exact hstart (hreaches.worth 0 (Nat.zero_le _) key rfl)
    · exact hkeeps

/-- A start key at the limit, with an octant that has points too. -/
theorem select_depths_at_limit :
    let start : Key Rat := .ofAddress ⟨1, ⟨1, 0, 1⟩⟩
    let below := start.octant ⟨true, false, false⟩
    let h : Hierarchy Rat := .ofList [(start, 4), (below, 3)]
    let query : Query Rat := ⟨none, some 1⟩
    start.address.depth ≤ 1 ∧ start ∈ h.select start query ∧ below ∉ h.select start query ∧
      ∀ key ∈ h.select start query, key.address.depth ≤ 1 := by
  intro start below h query
  have hdepth : start.address.depth ≤ 1 := by decide
  have hkeeps : query.KeepsDepth start := by
    refine ⟨by decide, fun limit hsome => ?_⟩
    cases hsome
    exact hdepth
  have hall : ∀ key ∈ h.select start query, query.KeepsDepth key :=
    (select_depths h start query).2.1.2 (fun _ => hkeeps)
  have hworth : h.Worth query start := (admits_iff h query start).1 (by decide +kernel)
  refine ⟨hdepth, ?_, fun hmem => ?_, fun key hmem => (hall key hmem).2 1 rfl⟩
  · exact (mem_select h start query start).2 ⟨[], reaches_nil.2 ⟨rfl, hworth⟩⟩
  · exact absurd ((hall below hmem).2 1 rfl) (by decide)

/-- A start key one level below the limit is selected, and so is one below the deepest grid. -/
theorem select_deeper_than_allowed :
    let key : Key Rat := .ofAddress ⟨2, ⟨1, 1, 1⟩⟩
    let deep : Key Rat := .ofAddress ⟨64, ⟨0, 0, 0⟩⟩
    let h : Hierarchy Rat := .ofList [(key, 10), (deep, 10)]
    h.select key ⟨none, some 1⟩ = [key] ∧ ¬ key.address.depth ≤ 1 ∧
      h.select deep ⟨none, none⟩ = [deep] ∧ ¬ deep.address.depth.toNat ≤ Address.maxDepth := by
  intro key deep h
  have hkey : ¬ key.address.depth ≤ 1 := by decide
  have hdeep : ¬ deep.address.depth.toNat ≤ Address.maxDepth := by decide
  refine ⟨?_, hkey, ?_, hdeep⟩
  · rw [select_of_too_deep (fun hkeeps => hkey (hkeeps.2 1 rfl))]
    rfl
  · rw [select_of_too_deep (fun hkeeps => hdeep hkeeps.1)]
    rfl

end Hierarchy

end PointTiles
