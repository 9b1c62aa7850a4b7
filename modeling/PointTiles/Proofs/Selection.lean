import Mathlib.Data.List.Perm.Subperm
import Mathlib.Logic.Relation
import PointTiles.Proofs.Descent
import PointTiles.Proofs.Hierarchy.Contents
import PointTiles.Proofs.KeyOrder
import PointTiles.Selection

/-! # What a selection holds

A selection is described by the paths that lead to its nodes: a node is selected if every node on
the way to it is worth selecting and every node before it may be passed.

* `Worth`, `Passable`: the tests a node on a path has to stand, one for being selected and one for
  being passed.
* `Reaches`: a path all of whose nodes stand them.
* `mem_visit_iff`: the recursion by levels finds the ends of these paths.
* `Search`: the same nodes found with a stack, which grows by the eight octants of a node.
* `select_exact`: the selection, its order and its length.
-/

namespace PointTiles.Hierarchy
set_option autoImplicit false

variable {α : Type} [Coordinate α]

/-! ## Paths to selected nodes -/

/-- The node has points and is in touch with the region asked for. -/
def Worth (h : Hierarchy α) (query : Query α) (key : Key α) : Prop :=
  0 < h.count key ∧ ∀ region, query.region = some region → region.overlaps key.bounds = true

/-- The node has octants, and they are not too deep. -/
def Passable (query : Query α) (key : Key α) : Prop :=
  key.address.depth.toNat < Address.maxDepth ∧
    ∀ limit, query.depthLimit = some limit → key.address.depth < limit

/-- Bisecting along a path leads from a start key to a key, and the nodes on the way stand the
tests. -/
structure Reaches (h : Hierarchy α) (query : Query α) (start : Key α) (path : List Octant)
    (key : Key α) : Prop where
  leads : Key.follow path start = .ok key
  worth : ∀ i ≤ path.length, ∀ node, Key.follow (path.take i) start = .ok node →
    h.Worth query node
  passable : ∀ i < path.length, ∀ node, Key.follow (path.take i) start = .ok node →
    Passable query node

theorem admits_iff (h : Hierarchy α) (query : Query α) (key : Key α) :
    h.admits query key = true ↔ h.Worth query key := by
  have hpos : h.count key ≠ 0 ↔ 0 < h.count key := by
    rw [ne_eq, ← UInt64.toNat_inj, UInt64.lt_iff_toNat_lt, UInt64.toNat_zero]
    omega
  simp only [admits, Worth, Bool.and_eq_true, decide_eq_true_eq, hpos]
  cases query.region <;> simp

omit [Coordinate α] in
theorem opens_iff (query : Query α) (key : Key α) :
    opens query key = true ↔ ∀ limit, query.depthLimit = some limit → key.address.depth < limit := by
  cases hlimit : query.depthLimit <;> simp [opens, hlimit]

theorem reaches_nil {h : Hierarchy α} {query : Query α} {start key : Key α} :
    h.Reaches query start [] key ↔ key = start ∧ h.Worth query start := by
  constructor
  · intro hr
    have hkey : start = key := by simpa [Key.follow] using hr.leads
    exact ⟨hkey.symm, hr.worth 0 (Nat.le_refl _) start rfl⟩
  · rintro ⟨rfl, hworth⟩
    refine ⟨rfl, fun i _ node hnode => ?_, fun i hi => absurd hi (Nat.not_lt_zero _)⟩
    have hself : key = node := by simpa [Key.follow] using hnode
    exact hself ▸ hworth

theorem reaches_cons {h : Hierarchy α} {query : Query α} {start key : Key α} {o : Octant}
    {path : List Octant} :
    h.Reaches query start (o :: path) key ↔
      h.Worth query start ∧ Passable query start ∧ h.Reaches query (start.octant o) path key := by
  have hstep : Passable query start → ∀ rest : List Octant,
      Key.follow (o :: rest) start = Key.follow rest (start.octant o) := by
    intro hpass rest
    have hdepth := hpass.1
    simp only [Address.maxDepth] at hdepth
    rw [Key.follow, Key.bisect_eq_octant o start (by omega)]
    rfl
  constructor
  · intro hr
    have hpass : Passable query start := hr.passable 0 (Nat.zero_lt_succ _) start rfl
    refine ⟨hr.worth 0 (Nat.zero_le _) start rfl, hpass, ?_, ?_, ?_⟩
    · rw [← hstep hpass]
      exact hr.leads
    · intro i hi node hnode
      exact hr.worth (i + 1) (Nat.succ_le_succ hi) node (by rwa [List.take_succ_cons, hstep hpass])
    · intro i hi node hnode
      exact hr.passable (i + 1) (Nat.succ_lt_succ hi) node
        (by rwa [List.take_succ_cons, hstep hpass])
  · rintro ⟨hworth, hpass, hr⟩
    refine ⟨by rw [hstep hpass]; exact hr.leads, ?_, ?_⟩
    · intro i hi node hnode
      cases i with
      | zero =>
        have hself : start = node := by simpa [Key.follow] using hnode
        exact hself ▸ hworth
      | succ i =>
        rw [List.take_succ_cons, hstep hpass] at hnode
        exact hr.worth i (Nat.le_of_succ_le_succ hi) node hnode
    · intro i hi node hnode
      cases i with
      | zero =>
        have hself : start = node := by simpa [Key.follow] using hnode
        exact hself ▸ hpass
      | succ i =>
        rw [List.take_succ_cons, hstep hpass] at hnode
        exact hr.passable i (Nat.lt_of_succ_lt_succ hi) node hnode

/-! ## The recursion by levels -/

theorem levelsBelow_octant {key : Key α} {levels : Nat} (hlevels : levels + 1 = levelsBelow key)
    (o : Octant) : levels = levelsBelow (key.octant o) := by
  simp only [levelsBelow, Address.maxDepth, Key.octant_address, Address.child_depth] at hlevels ⊢
  omega

theorem visit_succ (h : Hierarchy α) (query : Query α) (levels : Nat) (key : Key α) :
    h.visit query (levels + 1) key =
      if h.admits query key then
        if opens query key then
          key :: Octant.all.flatMap (fun o => h.visit query levels (key.octant o))
        else [key]
      else [] := by
  rw [visit, Key.octants, List.flatMap_map]

/-- A path to a node is empty, or goes on from an octant of its start. -/
theorem exists_reaches_iff {h : Hierarchy α} {query : Query α} {key node : Key α} :
    (∃ path, h.Reaches query key path node) ↔
      (node = key ∧ h.Worth query key) ∨ (h.Worth query key ∧ Passable query key ∧
        ∃ o path, h.Reaches query (key.octant o) path node) := by
  constructor
  · rintro ⟨path, hr⟩
    cases path with
    | nil => exact .inl (reaches_nil.1 hr)
    | cons o path =>
      obtain ⟨hworth, hpass, hr⟩ := reaches_cons.1 hr
      exact .inr ⟨hworth, hpass, o, path, hr⟩
  · rintro (hnil | ⟨hworth, hpass, o, path, hr⟩)
    · exact ⟨[], reaches_nil.2 hnil⟩
    · exact ⟨o :: path, reaches_cons.2 ⟨hworth, hpass, hr⟩⟩

theorem mem_visit_iff {h : Hierarchy α} {query : Query α} {levels : Nat} {key node : Key α}
    (hlevels : levels = levelsBelow key) :
    node ∈ h.visit query levels key ↔ ∃ path, h.Reaches query key path node := by
  induction levels generalizing key with
  | zero =>
    have hdeep : ¬ Passable query key := by
      intro hpass
      have hdepth := hpass.1
      simp only [levelsBelow] at hlevels
      omega
    rw [exists_reaches_iff, visit]
    simp only [← admits_iff, hdeep, false_and, and_false, or_false]
    split <;> simp_all
  | succ levels ih =>
    have hdepth : key.address.depth.toNat < Address.maxDepth := by
      simp only [levelsBelow] at hlevels
      omega
    have hpass : Passable query key ↔ opens query key = true := by
      rw [opens_iff, Passable]
      exact and_iff_right hdepth
    have hoctants : ∀ o, node ∈ h.visit query levels (key.octant o) ↔
        ∃ path, h.Reaches query (key.octant o) path node :=
      fun o => ih (levelsBelow_octant hlevels o)
    rw [exists_reaches_iff, visit_succ, hpass, ← admits_iff]
    by_cases hadmits : h.admits query key = true <;> by_cases hopens : opens query key = true <;>
      simp [hadmits, hopens, Octant.mem_all, hoctants]

/-! ## No node twice -/

theorem exists_along_of_mem_visit {h : Hierarchy α} {query : Query α} {levels : Nat}
    {key node : Key α} (hmem : node ∈ h.visit query levels key) :
    ∃ path : List Octant, path.length ≤ levels ∧ node = key.along path := by
  induction levels generalizing key with
  | zero =>
    simp only [visit] at hmem
    split at hmem
    · exact ⟨[], Nat.le_refl _, List.mem_singleton.1 hmem⟩
    · cases hmem
  | succ levels ih =>
    rw [visit_succ] at hmem
    split at hmem
    · split at hmem
      · rcases List.mem_cons.1 hmem with rfl | hmem
        · exact ⟨[], Nat.zero_le _, rfl⟩
        · obtain ⟨o, -, hmem⟩ := List.mem_flatMap.1 hmem
          obtain ⟨path, hlen, hnode⟩ := ih hmem
          exact ⟨o :: path, Nat.succ_le_succ hlen, hnode⟩
      · exact ⟨[], Nat.zero_le _, List.mem_singleton.1 hmem⟩
    · cases hmem

theorem visit_addresses_differ (h : Hierarchy α) (query : Query α) {levels : Nat} {key : Key α}
    (hlevels : levels ≤ levelsBelow key) :
    (h.visit query levels key).Pairwise (fun a b => a.address ≠ b.address) := by
  induction levels generalizing key with
  | zero =>
    rw [visit]
    split
    · exact List.pairwise_singleton _ _
    · exact List.Pairwise.nil
  | succ levels ih =>
    have hdepth : key.address.depth.toNat + (levels + 1) ≤ 63 := by
      simp only [levelsBelow, Address.maxDepth] at hlevels
      omega
    rw [visit_succ]
    split
    · split
      · rw [List.pairwise_cons, List.pairwise_flatMap]
        refine ⟨?_, ?_, ?_⟩
        · -- A node below the key is deeper.
          intro node hmem hsame
          obtain ⟨o, -, hmem⟩ := List.mem_flatMap.1 hmem
          obtain ⟨path, hlen, rfl⟩ := exists_along_of_mem_visit hmem
          have hdeeper := Address.along_depth key.address (o :: path)
            (by rw [List.length_cons]; omega)
          rw [Key.along_address, Key.octant_address] at hsame
          rw [Address.along, ← hsame, List.length_cons] at hdeeper
          omega
        · intro o _
          refine ih ?_
          simp only [levelsBelow, Address.maxDepth, Key.octant_address, Address.child_depth]
          omega
        · -- Nodes below different octants spell different numbers on some axis.
          refine Octant.nodup_all.imp (fun {o o'} hne => ?_)
          intro a ha b hb
          obtain ⟨path, hlen, rfl⟩ := exists_along_of_mem_visit ha
          obtain ⟨path', hlen', rfl⟩ := exists_along_of_mem_visit hb
          rw [Key.along_address, Key.along_address, Key.octant_address, Key.octant_address]
          exact Address.along_child_ne hne (by omega) (by omega)
      · exact List.pairwise_singleton _ _
    · exact List.Pairwise.nil

/-! ## The search with a stack -/

/-- A search under way: the keys to look at, the next one first, and the nodes found. -/
structure Search (α : Type) where
  stack : List (Key α)
  found : List (Key α)

/-- One turn of a search: the next key is dropped, or it is found and its octants are put on the
stack where they may be looked at. -/
def turn (h : Hierarchy α) (query : Query α) (search : Search α) : Option (Search α) :=
  match search.stack with
  | [] => none
  | key :: rest =>
    if h.admits query key then
      if key.address.depth.toNat < Address.maxDepth ∧ opens query key then
        some ⟨key.octants.reverse ++ rest, search.found ++ [key]⟩
      else some ⟨rest, search.found ++ [key]⟩
    else some ⟨rest, search.found⟩

/-- Some turns lead from one search to another. -/
def Turns (h : Hierarchy α) (query : Query α) : Search α → Search α → Prop :=
  Relation.ReflTransGen (fun before after => h.turn query before = some after)

/-- Keys whose searches each come to an end are searched one after the other. -/
theorem turns_through {h : Hierarchy α} {query : Query α} {finds : Key α → List (Key α)}
    {keys : List (Key α)}
    (hkeys : ∀ key ∈ keys, ∀ rest found, ∃ out, out.Perm (finds key) ∧
      h.Turns query ⟨key :: rest, found⟩ ⟨rest, found ++ out⟩)
    (rest found : List (Key α)) :
    ∃ out, out.Perm (keys.flatMap finds) ∧
      h.Turns query ⟨keys ++ rest, found⟩ ⟨rest, found ++ out⟩ := by
  induction keys generalizing found with
  | nil => exact ⟨[], List.Perm.refl _, by rw [List.append_nil]; exact .refl⟩
  | cons key keys ih =>
    obtain ⟨out, hout, hfirst⟩ := hkeys key List.mem_cons_self (keys ++ rest) found
    obtain ⟨others, hothers, hlater⟩ :=
      ih (fun key hkey => hkeys key (List.mem_cons_of_mem _ hkey)) (found ++ out)
    refine ⟨out ++ others, ?_, ?_⟩
    · rw [List.flatMap_cons]
      exact hout.append hothers
    · rw [← List.append_assoc]
      exact Relation.ReflTransGen.trans hfirst hlater

/-- Looking at a key comes to an end, with the rest of the stack as it was. -/
theorem turns_visit (h : Hierarchy α) (query : Query α) {levels : Nat} {key : Key α}
    (hlevels : levels = levelsBelow key) (rest found : List (Key α)) :
    ∃ out, out.Perm (h.visit query levels key) ∧
      h.Turns query ⟨key :: rest, found⟩ ⟨rest, found ++ out⟩ := by
  induction levels generalizing key rest found with
  | zero =>
    have hdeep : ¬ key.address.depth.toNat < Address.maxDepth := by
      simp only [levelsBelow] at hlevels
      omega
    refine ⟨h.visit query 0 key, List.Perm.refl _, Relation.ReflTransGen.single ?_⟩
    by_cases hadmits : h.admits query key = true <;> simp [turn, visit, hadmits, hdeep]
  | succ levels ih =>
    have hdepth : key.address.depth.toNat < Address.maxDepth := by
      simp only [levelsBelow] at hlevels
      omega
    rw [visit]
    by_cases hadmits : h.admits query key = true
    · by_cases hopens : opens query key = true
      · have hoctants : ∀ child ∈ key.octants.reverse, ∀ rest found,
            ∃ out, out.Perm (h.visit query levels child) ∧
              h.Turns query ⟨child :: rest, found⟩ ⟨rest, found ++ out⟩ := by
          intro child hchild rest found
          obtain ⟨o, -, rfl⟩ := List.mem_map.1 (List.mem_reverse.1 hchild)
          exact ih (levelsBelow_octant hlevels o) rest found
        obtain ⟨out, hout, hturns⟩ := turns_through hoctants rest (found ++ [key])
        have hfirst : h.turn query ⟨key :: rest, found⟩ =
            some ⟨key.octants.reverse ++ rest, found ++ [key]⟩ := by
          simp [turn, hadmits, hopens, hdepth]
        refine ⟨key :: out, ?_, ?_⟩
        · rw [if_pos hadmits, if_pos hopens]
          exact (hout.trans ((List.reverse_perm _).flatMap_right _)).cons key
        · rw [List.append_cons]
          exact Relation.ReflTransGen.head hfirst hturns
      · refine ⟨[key], by simp [hadmits, hopens], Relation.ReflTransGen.single ?_⟩
        simp [turn, hadmits, hopens]
    · refine ⟨[], by simp [hadmits], Relation.ReflTransGen.single ?_⟩
      simp [turn, hadmits]

/-! ## The selection -/

theorem mem_select (h : Hierarchy α) (start : Key α) (query : Query α) (key : Key α) :
    key ∈ h.select start query ↔ ∃ path, h.Reaches query start path key := by
  rw [select, List.mem_mergeSort, mem_visit_iff rfl]

theorem select_sorted (h : Hierarchy α) (start : Key α) (query : Query α) :
    (h.select start query).Pairwise (fun a b => compare a b = .lt) :=
  Key.sorted_of_addresses_differ (visit_addresses_differ h query (Nat.le_refl _))

/-- A search from a start key ends, and its finds in key order are the selection. -/
theorem search_ends (h : Hierarchy α) (start : Key α) (query : Query α) :
    ∃ found, h.Turns query ⟨[start], []⟩ ⟨[], found⟩ ∧
      found.mergeSort (fun a b => (compare a b).isLE) = h.select start query := by
  obtain ⟨found, hperm, hturns⟩ := turns_visit h query (Eq.refl (levelsBelow start)) [] []
  have hdiffer : found.Pairwise (fun a b => a.address ≠ b.address) :=
    hperm.symm.pairwise (visit_addresses_differ h query (Nat.le_refl _)) (fun hne => hne.symm)
  refine ⟨found, hturns, Key.eq_of_sorted (Key.sorted_of_addresses_differ hdiffer)
    (select_sorted h start query) ?_⟩
  exact (List.mergeSort_perm _ _).trans (hperm.trans (List.mergeSort_perm _ _).symm)

omit [Coordinate α] in
/-- A node with points is in the hierarchy. -/
theorem exists_mem_toList_of_count_pos {h : Hierarchy α} {key : Key α} (hpos : 0 < h.count key) :
    ∃ entry ∈ h.toList, entry.1.address = key.address ∧ 0 < entry.2 := by
  cases hnode : h.nodes[key.address]? with
  | none => simp [count, hnode] at hpos
  | some node =>
    refine ⟨(⟨key.address, node.bounds⟩, node.count), mem_toList_iff.2 hnode, rfl, ?_⟩
    simpa [count, hnode] using hpos

theorem length_select_le (h : Hierarchy α) (start : Key α) (query : Query α) :
    (h.select start query).length ≤ (h.toList.filter (fun entry => 0 < entry.2)).length := by
  have hnodup : ((h.select start query).map Key.address).Nodup := by
    rw [List.Nodup, List.pairwise_map]
    refine (select_sorted h start query).imp (fun {a b} hlt hsame => ?_)
    rw [Key.compare_def, hsame, Std.ReflOrd.compare_self] at hlt
    cases hlt
  have hsub : (h.select start query).map Key.address ⊆
      (h.toList.filter (fun entry => 0 < entry.2)).map (fun entry => entry.1.address) := by
    intro a ha
    obtain ⟨key, hkey, rfl⟩ := List.mem_map.1 ha
    obtain ⟨path, hr⟩ := (mem_select h start query key).1 hkey
    have hworth := hr.worth path.length (Nat.le_refl _) key (by rw [List.take_length]; exact hr.leads)
    obtain ⟨entry, hentry, haddress, hpos⟩ := exists_mem_toList_of_count_pos hworth.1
    exact List.mem_map.2 ⟨entry, List.mem_filter.2 ⟨hentry, by simpa using hpos⟩, haddress⟩
  simpa using (hnodup.subperm hsub).length_le

/-- A selection is found by a search that ends. It holds exactly the keys that directions lead to
with every node on the way worth selecting and every node before the last passable; it is in
strictly ascending key order, and no longer than the list of nodes with points. -/
theorem select_exact (h : Hierarchy α) (start : Key α) (query : Query α) :
    (∃ found, h.Turns query ⟨[start], []⟩ ⟨[], found⟩ ∧
      found.mergeSort (fun a b => (compare a b).isLE) = h.select start query) ∧
    (∀ key, key ∈ h.select start query ↔ ∃ directions : List UInt8, (∀ n ∈ directions, n < 8) ∧
      h.Reaches query start (directions.map Octant.ofByte) key) ∧
    (h.select start query).Pairwise (fun a b => compare a b = .lt) ∧
    (h.select start query).length ≤ (h.toList.filter (fun entry => 0 < entry.2)).length := by
  refine ⟨search_ends h start query, fun key => ?_, select_sorted h start query,
    length_select_le h start query⟩
  rw [mem_select]
  constructor
  · rintro ⟨path, hr⟩
    obtain ⟨directions, hbytes, rfl⟩ := Octant.exists_bytes path
    exact ⟨directions, hbytes, hr⟩
  · rintro ⟨directions, -, hr⟩
    exact ⟨_, hr⟩

end PointTiles.Hierarchy
