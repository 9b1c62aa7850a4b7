import Mathlib.Algebra.Order.Group.Multiset
import PointTiles.Proofs.Cells
import PointTiles.Proofs.Load.Docket

/-! # Which pages a load fetches

* `Docket.known`: the keys of which the next round is made up.
* `Docket.past`: the pages whose tasks have done the action of a number, if they have one.
* `Docket.Sound`: the pages requested are reachable and distinct, each is fetched when its task
  begins, and what they point to is requested, known or about to be found.
* `Docket.Sound.step`: every step keeps it.
* `Docket.Sound.mem_requested_iff`: when the load has returned, the pages requested are those
  reachable.
-/

namespace PointTiles
set_option autoImplicit false

variable {α : Type}

/-! ## Phases -/

namespace Phase

/-- The keys whose tasks are to be submitted. -/
def toSubmit : Phase α → List (Key α)
  | submitting keys => keys
  | _ => []

/-- Whether the pool may have tasks of the load. -/
def isRound : Phase α → Bool
  | submitting _ | awaiting => true
  | _ => false

end Phase

namespace Docket

/-- The keys of which the next round is made up, as far as they are found. -/
def known (d : Docket α) : List (Key α) :=
  match d.phase with
  | .opening keys => keys
  | .submitting _ | .awaiting | .gathering => d.workspace.discovered
  | _ => []

/-- The pages whose tasks have come past the action of a number, or have ended. -/
def past (d : Docket α) (j : Nat) : Multiset Address :=
  d.done + (d.underway.filter (fun u => j < u.2)).map Prod.fst

theorem past_act {d : Docket α} {a : Address} {k : Nat} {underway : Multiset (Address × Nat)}
    {w : Workspace α} (hunderway : d.underway = (a, k) ::ₘ underway) (j : Nat) :
    past { d with underway := (a, k + 1) ::ₘ underway, workspace := w } j =
      if k = j then a ::ₘ d.past j else d.past j := by
  rw [past, past, hunderway]
  by_cases hsame : k = j
  · simp [hsame]
  · by_cases hpast : j < k
    · simp [hsame, hpast, Nat.lt_succ_of_lt hpast]
    · have hlate : ¬ j < k + 1 := by omega
      simp [hsame, hpast, hlate]

theorem past_finish {d : Docket α} {a : Address} {k : Nat} {underway : Multiset (Address × Nat)}
    {errors : List String} (hunderway : d.underway = (a, k) ::ₘ underway) (j : Nat) :
    past { d with underway, done := a ::ₘ d.done, errors } j =
      if j < k then d.past j else a ::ₘ d.past j := by
  rw [past, past, hunderway]
  by_cases hpast : j < k
  · simp [hpast]
  · simp [hpast]

variable [Coordinate α]

/-- The pages of a load are in order. -/
structure Sound (source : Source) (root : Box α) (d : Docket α) : Prop where
  account : (d.requested : Multiset Address) =
    d.done + d.underway.map Prod.fst + (d.phase.toSubmit.map Key.address : List Address)
  fetched : d.phase ≠ .beginning → (d.workspace.fetched : Multiset Address) = d.past 0
  nodup : d.requested.Nodup
  reachable : ∀ a ∈ d.requested, Reachable source root a
  known : ∀ a ∈ d.known.map Key.address, Reachable source root a
  /-- What a page points to is requested or known, unless its task has not come to that. -/
  closed : ∀ a ∈ d.requested, ∀ b, PointsTo source root a b →
    b ∈ d.requested ∨ b ∈ d.known.map Key.address ∨ a ∈ d.phase.toSubmit.map Key.address ∨
      ∃ k < 3, (a, k) ∈ d.underway
  rooted : d.phase ≠ .beginning →
    Address.root ∈ d.requested ∨ Address.root ∈ d.known.map Key.address
  quiet : d.phase.isRound = false → d.underway = 0
  cleared : ∀ keys, d.phase = .opening keys → d.workspace.discovered = []
  fresh : d.phase = .beginning → d.requested = []

variable {source : Source} {root : Box α} {others : Prop} {d d' : Docket α}

theorem sound_initial (source : Source) (root : Box α) (pool : Pool (Workspace α)) :
    Sound source root ((Load.initial pool).docket 0 0) where
  account := rfl
  fetched h := absurd rfl h
  nodup := List.nodup_nil
  reachable := nofun
  known := nofun
  closed := nofun
  rooted h := absurd rfl h
  quiet _ := rfl
  cleared := nofun
  fresh _ := rfl

omit [Coordinate α] in
/-- During a round the keys found are known. -/
theorem known_of_isRound (h : d.phase.isRound = true) : d.known = d.workspace.discovered := by
  unfold known
  cases hphase : d.phase <;> simp_all [Phase.isRound]

namespace Sound

theorem isRound_of_mem (h : Sound source root d) {u : Address × Nat} (hu : u ∈ d.underway) :
    d.phase.isRound = true := by
  by_contra hround
  rw [h.quiet (by simpa using hround)] at hu
  exact Multiset.notMem_zero u hu

theorem mem_requested (h : Sound source root d) {u : Address × Nat} (hu : u ∈ d.underway) :
    u.1 ∈ d.requested := by
  rw [← Multiset.mem_coe, h.account]
  exact Multiset.mem_add.2 (.inl (Multiset.mem_add.2 (.inr (Multiset.mem_map_of_mem _ hu))))

theorem act {a : Address} {k : Nat} {underway : Multiset (Address × Nat)} {w : Workspace α}
    (h : Sound source root d) (hunderway : d.underway = (a, k) ::ₘ underway)
    (heffect : Effect source root a k d.workspace w) :
    Sound source root { d with underway := (a, k + 1) ::ₘ underway, workspace := w } := by
  have hmem : (a, k) ∈ d.underway := hunderway ▸ Multiset.mem_cons_self _ _
  have hround := h.isRound_of_mem hmem
  have ha : a ∈ d.requested := h.mem_requested hmem
  obtain ⟨keys, hkeys, hsound, hcomplete⟩ := heffect.discovered
  have hknown : Docket.known { d with underway := (a, k + 1) ::ₘ underway, workspace := w } =
      d.known ++ keys := by
    rw [known_of_isRound hround, ← hkeys]
    exact known_of_isRound hround
  refine ⟨?_, fun hbegun => ?_, h.nodup, h.reachable, fun b hb => ?_, fun b hb c hc => ?_,
    fun hbegun => ?_, fun hquiet => ?_, fun keys hphase => ?_, h.fresh⟩
  · simpa [hunderway] using h.account
  · rw [heffect.fetched, h.fetched hbegun]
    exact (past_act hunderway 0).symm
  · rw [hknown, List.map_append] at hb
    rcases List.mem_append.1 hb with hold | hnew
    · exact h.known b hold
    · exact .next (h.reachable a ha) (hsound b hnew)
  · rw [hknown, List.map_append]
    rcases h.closed b hb c hc with hreq | hkn | hsub | ⟨j, hj, hmem⟩
    · exact .inl hreq
    · exact .inr (.inl (List.mem_append_left _ hkn))
    · exact .inr (.inr (.inl hsub))
    · rw [hunderway] at hmem
      rcases Multiset.mem_cons.1 hmem with hsame | hother
      · -- The third action notes what the page points to; before it the task is not done.
        cases hsame
        by_cases hlast : k = 2
        · exact .inr (.inl (List.mem_append_right _ (hcomplete hlast c hc)))
        · exact .inr (.inr (.inr ⟨k + 1, by omega, Multiset.mem_cons_self _ _⟩))
      · exact .inr (.inr (.inr ⟨j, hj, Multiset.mem_cons_of_mem hother⟩))
  · rw [hknown, List.map_append]
    exact (h.rooted hbegun).imp_right (List.mem_append_left _)
  · exact absurd (hround.symm.trans hquiet) (by decide)
  · rw [show d.phase = .opening keys from hphase] at hround
    cases hround

theorem finish {a : Address} {underway : Multiset (Address × Nat)} {errors : List String}
    (h : Sound source root d)
    (hunderway : d.underway = (a, (pageTask source root a).actions.length) ::ₘ underway) :
    Sound source root { d with underway, done := a ::ₘ d.done, errors } := by
  have hround := h.isRound_of_mem (hunderway ▸ Multiset.mem_cons_self _ _)
  refine ⟨?_, fun hbegun => ?_, h.nodup, h.reachable, h.known, fun b hb c hc => ?_, h.rooted,
    fun hquiet => ?_, h.cleared, h.fresh⟩
  · simpa [hunderway] using h.account
  · rw [past_finish hunderway 0, if_pos (length_actions_mem source root a).1]
    exact h.fetched hbegun
  · rcases h.closed b hb c hc with hreq | hkn | hsub | ⟨k, hk, hmem⟩
    · exact .inl hreq
    · exact .inr (.inl hkn)
    · exact .inr (.inr (.inl hsub))
    · rw [hunderway] at hmem
      rcases Multiset.mem_cons.1 hmem with hsame | hother
      · -- A page that points to another has three actions, so its task does not end before them.
        cases hsame
        have hlength := hc.length_actions
        omega
      · exact .inr (.inr (.inr ⟨k, hk, hother⟩))
  · exact absurd (hround.symm.trans hquiet) (by decide)

/-- Steps that leave the pages and the keys of the next round as they are. -/
theorem turn {phase : Phase α} {w : Workspace α} {errors : List String} (h : Sound source root d)
    (hsubmit : phase.toSubmit = d.phase.toSubmit)
    (hknown : Docket.known { d with phase, workspace := w, errors } = d.known)
    (hfetched : w.fetched = d.workspace.fetched)
    (hbegun : phase = .beginning ↔ d.phase = .beginning)
    (hquiet : phase.isRound = false → d.underway = 0)
    (hcleared : ∀ keys, phase = .opening keys → w.discovered = []) :
    Sound source root { d with phase, workspace := w, errors } := by
  refine ⟨?_, fun hphase => ?_, h.nodup, h.reachable, ?_, ?_, fun hphase => ?_, hquiet, hcleared,
    fun hphase => h.fresh (hbegun.1 hphase)⟩
  · rw [hsubmit]
    exact h.account
  · rw [hfetched]
    exact h.fetched (fun hold => hphase (hbegun.2 hold))
  · rw [hknown]
    exact h.known
  · rw [hknown, hsubmit]
    exact h.closed
  · rw [hknown]
    exact h.rooted (fun hold => hphase (hbegun.2 hold))

theorem at_beginning (h : Sound source root d) (hphase : d.phase = .beginning) :
    d.requested = [] ∧ d.underway = 0 ∧ d.done = 0 := by
  have hquiet := h.quiet (by rw [hphase]; rfl)
  have haccount := h.account
  rw [h.fresh hphase, hphase, hquiet] at haccount
  exact ⟨h.fresh hphase, hquiet, by simpa [Phase.toSubmit] using haccount.symm⟩

theorem begin {before : Nat} (h : Sound source root d) (hphase : d.phase = .beginning) :
    Sound source root
      { d with
        phase := .opening [Key.root root]
        workspace := { d.workspace with discovered := [], fetched := [] }
        errorsBefore := before } := by
  obtain ⟨hrequested, hunderway, hdone⟩ := h.at_beginning hphase
  refine ⟨?_, fun _ => ?_, h.nodup, h.reachable, fun a ha => ?_, fun a ha => ?_,
    fun _ => .inr List.mem_cons_self, fun _ => hunderway, fun _ _ => rfl, nofun⟩
  · simp [hrequested, hunderway, hdone, Phase.toSubmit]
  · simp [past, hunderway, hdone]
  · rw [List.mem_singleton.1 ha]
    exact .root
  · rw [show d.requested = [] from hrequested] at ha
    cases ha

theorem openRound {keys : List (Key α)} (h : Sound source root d)
    (hphase : d.phase = .opening keys) :
    Sound source root
      { d with
        phase := .submitting (unrequested d.requested keys)
        requested := d.requested ++ (unrequested d.requested keys).map Key.address } := by
  have hbegun : d.phase ≠ .beginning := by simp [hphase]
  have hcleared := h.cleared keys hphase
  have hknown : d.known = keys := by simp only [Docket.known, hphase]
  have hround : ∀ a ∈ d.known.map Key.address,
      a ∈ d.requested ++ (unrequested d.requested keys).map Key.address := by
    intro a ha
    rw [hknown] at ha
    obtain ⟨key, hkey, rfl⟩ := List.mem_map.1 ha
    exact List.mem_append.2 (mem_requested_or_unrequested d.requested hkey)
  have hnew : ∀ a ∈ (unrequested d.requested keys).map Key.address,
      a ∈ d.known.map Key.address ∧ a ∉ d.requested := by
    intro a ha
    obtain ⟨key, hkey, rfl⟩ := List.mem_map.1 ha
    obtain ⟨hmem, hnot⟩ := mem_of_mem_unrequested hkey
    exact ⟨hknown ▸ List.mem_map_of_mem hmem, hnot⟩
  refine ⟨?_, fun _ => h.fetched hbegun, ?_, fun a ha => ?_, fun a ha => ?_, fun a ha b hb => ?_,
    fun _ => .inl ?_, nofun, nofun, nofun⟩
  · have haccount := h.account
    rw [hphase] at haccount
    rw [← Multiset.coe_add, haccount]
    simp [Phase.toSubmit]
  · refine List.nodup_append.2 ⟨h.nodup, nodup_unrequested d.requested keys, ?_⟩
    rintro a ha b hb rfl
    exact (hnew a hb).2 ha
  · rcases List.mem_append.1 ha with hold | hfresh
    · exact h.reachable a hold
    · exact h.known a (hnew a hfresh).1
  · simp [Docket.known, hcleared] at ha
  · rcases List.mem_append.1 ha with hold | hfresh
    · rcases h.closed a hold b hb with hreq | hkn | hsub | hunder
      · exact .inl (List.mem_append_left _ hreq)
      · exact .inl (hround b hkn)
      · rw [hphase] at hsub
        cases hsub
      · exact .inr (.inr (.inr hunder))
    · exact .inr (.inr (.inl hfresh))
  · rcases h.rooted hbegun with hreq | hkn
    · exact List.mem_append_left _ hreq
    · exact hround _ hkn

theorem openLast {keys : List (Key α)} (h : Sound source root d) (hphase : d.phase = .opening keys)
    (hold : unrequested d.requested keys = []) :
    Sound source root { d with phase := .reporting } := by
  have hbegun : d.phase ≠ .beginning := by simp [hphase]
  have hknown : ∀ a ∈ d.known.map Key.address, a ∈ d.requested := by
    intro a ha
    rw [show d.known = keys by simp only [Docket.known, hphase]] at ha
    obtain ⟨key, hkey, rfl⟩ := List.mem_map.1 ha
    simpa [hold] using mem_requested_or_unrequested d.requested hkey
  refine ⟨?_, fun _ => h.fetched hbegun, h.nodup, h.reachable, nofun, fun a ha b hb => ?_,
    fun _ => .inl ?_, fun _ => h.quiet (by rw [hphase]; rfl), nofun, nofun⟩
  · have haccount := h.account
    rw [hphase] at haccount
    exact haccount
  · rcases h.closed a ha b hb with hreq | hkn | hsub | hunder
    · exact .inl hreq
    · exact .inl (hknown b hkn)
    · rw [hphase] at hsub
      cases hsub
    · exact .inr (.inr (.inr hunder))
  · exact (h.rooted hbegun).elim id (hknown _)

theorem submit {key : Key α} {keys : List (Key α)} (h : Sound source root d)
    (hphase : d.phase = .submitting (key :: keys)) :
    Sound source root
      { d with phase := .submitting keys, underway := (key.address, 0) ::ₘ d.underway } := by
  have hbegun : d.phase ≠ .beginning := by simp [hphase]
  have hknown : Docket.known
      { d with phase := .submitting keys, underway := (key.address, 0) ::ₘ d.underway } =
      d.known := by
    simp only [Docket.known, hphase]
  refine ⟨?_, fun _ => ?_, h.nodup, h.reachable, ?_, fun a ha b hb => ?_, fun _ => ?_, nofun,
    nofun, nofun⟩
  · have haccount := h.account
    rw [hphase] at haccount
    rw [haccount]
    simp [Phase.toSubmit, ← Multiset.cons_coe]
  · simpa [past] using h.fetched hbegun
  · rw [hknown]
    exact h.known
  · rw [hknown]
    rcases h.closed a ha b hb with hreq | hkn | hsub | ⟨k, hk, hmem⟩
    · exact .inl hreq
    · exact .inr (.inl hkn)
    · rw [hphase] at hsub
      rcases List.mem_cons.1 hsub with rfl | hsub
      · exact .inr (.inr (.inr ⟨0, by decide, Multiset.mem_cons_self _ _⟩))
      · exact .inr (.inr (.inl hsub))
    · exact .inr (.inr (.inr ⟨k, hk, Multiset.mem_cons_of_mem hmem⟩))
  · rw [hknown]
    exact h.rooted hbegun

theorem step (h : Sound source root d) (hstep : Docket.Step source root others d d') :
    Sound source root d' := by
  cases hstep with
  | rest => exact h
  | elsewhere hothers hfetched hdiscovered =>
    refine h.turn rfl ?_ hfetched Iff.rfl h.quiet (fun keys hphase => ?_)
    · simp only [Docket.known, hdiscovered]
    · rw [hdiscovered]
      exact h.cleared keys hphase
  | act hunderway heffect hlength => exact h.act hunderway heffect
  | finish hunderway => exact h.finish hunderway
  | begin hphase => exact h.begin hphase
  | openRound hphase hnew => exact h.openRound hphase
  | openLast hphase hold => exact h.openLast hphase hold
  | submit hphase => exact h.submit hphase
  | submitted hphase =>
    exact h.turn (by rw [hphase]; rfl) (by simp only [Docket.known, hphase]) rfl (by simp [hphase])
      nofun nofun
  | await hphase hidle =>
    exact h.turn (by rw [hphase]; rfl) (by simp only [Docket.known, hphase]) rfl (by simp [hphase])
      (fun _ => hidle) nofun
  | gather hphase =>
    exact h.turn (by rw [hphase]; rfl) (by simp only [Docket.known, hphase]) rfl (by simp [hphase])
      (fun _ => h.quiet (by rw [hphase]; rfl)) (fun _ _ => rfl)
  | report hphase =>
    exact h.turn (by rw [hphase]; rfl) (by simp only [Docket.known, hphase]) rfl (by simp [hphase])
      (fun _ => h.quiet (by rw [hphase]; rfl)) nofun

/-! ## What has been fetched -/

theorem past_le (h : Sound source root d) (j : Nat) : d.past j ≤ d.requested := by
  rw [h.account, add_assoc]
  refine Multiset.add_le_add_left ?_
  exact (Multiset.map_le_map (Multiset.filter_le _ _)).trans (Multiset.le_add_right _ _)

theorem nodup_fetched (h : Sound source root d) (hbegun : d.phase ≠ .beginning) :
    d.workspace.fetched.Nodup := by
  rw [← Multiset.coe_nodup, h.fetched hbegun]
  exact Multiset.nodup_of_le (h.past_le 0) (Multiset.coe_nodup.2 h.nodup)

/-- When the call has returned, every page requested has been fetched and its task has ended. -/
theorem past_eq (h : Sound source root d) {result : Except Fault Unit}
    (hphase : d.phase = .finished result) (j : Nat) :
    d.past j = d.requested ∧ d.done = d.requested := by
  have hunderway := h.quiet (by rw [hphase]; rfl)
  have haccount := h.account
  rw [hunderway, hphase] at haccount
  rw [past, hunderway, haccount]
  simp [Phase.toSubmit]

theorem mem_requested_iff (h : Sound source root d) {result : Except Fault Unit}
    (hphase : d.phase = .finished result) (a : Address) :
    a ∈ d.requested ↔ Reachable source root a := by
  have hknown : d.known = [] := by simp only [Docket.known, hphase]
  refine ⟨h.reachable a, fun ha => ?_⟩
  induction ha with
  | root => simpa [hknown] using h.rooted (by simp [hphase])
  | next hb hnext ih =>
    have hclosed := h.closed _ ih _ hnext
    rw [h.quiet (by rw [hphase]; rfl), hknown, hphase] at hclosed
    simpa [Phase.toSubmit] using hclosed

/-- There are no more pages requested than cells. -/
theorem length_requested_le (h : Sound source root d) : d.requested.length ≤ 2 ^ 190 :=
  Address.length_le_of_nodup h.nodup (fun a ha => (h.reachable a ha).ofCell)

end Sound

end Docket

end PointTiles
