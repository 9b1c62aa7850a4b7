import PointTiles.Proofs.Load.Ending

/-! # Every load ends and fetches each reachable page once

The pool may have tasks of others when the load begins, as long as these end too.
-/

namespace PointTiles.Load
set_option autoImplicit false

variable {α : Type} [Coordinate α]

/-- In whatever order the caller and the workers move, a load makes only so many moves, and until the
call returns there is another one. No page is fetched twice, and when the call has returned, the
pages fetched are those reachable. The schedule in which the caller goes first is one such order. -/
theorem fetches_reachable_once (source : Source) (root : Box α) {size capacity : Nat}
    {shared : Workspace α} {past : List (Pool.Event (Workspace α))} {pool : Pool (Workspace α)}
    (hpast : Pool.run past (Pool.stopped size capacity shared) = some pool)
    (hrunning : pool.running = true) (hguests : Considerate pool) :
    (∀ events load, IsRun source root pool events load →
      events.length ≤ moveLimit pool ∧
      (load.result? = none → ∃ event : Event α, event.isOwn = true ∧
        (load.step source root event).isSome) ∧
      (load.phase ≠ .beginning → load.pool.shared.fetched.Nodup) ∧
      (load.result?.isSome → ∀ a, a ∈ load.pool.shared.fetched ↔ Reachable source root a)) ∧
    ∃ events, IsRun source root pool events (run source root pool) ∧
      (run source root pool).result?.isSome := by
  have hsteady : Steady source root True (initial pool) 0 :=
    ⟨Pool.sound_of_run hpast, hrunning, hguests.staff⟩
  have hstart := Docket.sound_initial source root pool
  constructor
  · rintro events load ⟨hown, hrun⟩
    obtain ⟨underway, done, hsound, hnow⟩ :=
      docket_of_run Docket.Sound.step hsteady hstart hown hrun
    have hlength := length_add_weight_le hsteady hstart hown hrun
    have hlimit := weight_initial_le pool
    refine ⟨by omega, hnow.exists_own, hsound.nodup_fetched, fun hresult a => ?_⟩
    obtain ⟨result, hresult⟩ := Option.isSome_iff_exists.1 hresult
    have hphase := result?_eq_some_iff.1 hresult
    have hbegun : load.phase ≠ .beginning := by simp [hphase]
    have hfetched := (hsound.fetched hbegun).trans (hsound.past_eq hphase 0).1
    rw [← hsound.mem_requested_iff hphase, ← Multiset.mem_coe, ← Multiset.mem_coe, ← hfetched]
    rfl
  · obtain ⟨hresult, events, hown, hrun⟩ :=
      exists_run_of_advance hsteady hstart (weight_initial_le pool)
    exact ⟨events, ⟨hown, hrun⟩, hresult⟩

/-- Every page points to the root and to one of its octants. -/
def circular : Source := fun _ => .ok "\x7b\"0-0-0-0\": -1, \"1-1-0-0\": -1\x7d"

/-- The pool still has a task of somebody else. -/
theorem fetches_reachable_once_circular :
    ∃ pool : Pool (Workspace Rat),
      Pool.run [.start, .submit ⟨[some], none⟩]
        (Pool.stopped 2 1 (.ofHierarchy .empty)) = some pool ∧
      pool.running = true ∧ Considerate pool ∧
      ∃ events load, IsRun circular Box.zero pool events load ∧
        events.length ≤ moveLimit pool ∧ load.result?.isSome ∧
        ∀ a, a ∈ load.pool.shared.fetched ↔ Reachable circular (Box.zero : Box Rat) a := by
  have hpast : Pool.run [.start, .submit ⟨[some], none⟩]
      (Pool.stopped 2 1 (.ofHierarchy .empty) : Pool (Workspace Rat)) =
      some { Pool.create 2 1 (.ofHierarchy .empty) with queue := [⟨[some], none⟩] } := rfl
  have hguests : Considerate
      { (Pool.create 2 1 (.ofHierarchy .empty) : Pool (Workspace Rat)) with
        queue := [⟨[some], none⟩] } := by
    constructor
    · intro task htask action haction w
      cases List.mem_singleton.1 htask
      cases List.mem_singleton.1 haction
      exact ⟨w, rfl, rfl, rfl⟩
    · intro task rest hbusy
      simp [Pool.create, Pool.start, Pool.step, Pool.stopped] at hbusy
  obtain ⟨hruns, events, hrun, hresult⟩ :=
    fetches_reachable_once circular Box.zero hpast rfl hguests
  obtain ⟨hlength, -, -, hfetched⟩ := hruns events _ hrun
  exact ⟨_, hpast, rfl, hguests, events, _, hrun, hlength, hresult, hfetched hresult⟩

end PointTiles.Load
