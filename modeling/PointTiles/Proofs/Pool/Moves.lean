import PointTiles.Proofs.Pool.Step

/-! # Moves of the workers

* `Event.isMove`: the events that are moves of a worker.
* `weight_of_step`: every move takes one off the weight, so that there are only so many in a row.
* `exists_move_of_busy`, `exists_move_of_waiting`: which workers can move.
* `exists_step_of_advance?`, `exists_advance?_of_step`: the next move is found if there is one.
-/

namespace PointTiles.Pool
set_option autoImplicit false

-- Sums of numbers begin at the zero of the core library, whatever else is imported.
attribute [local instance (high)] Zero.ofOfNat0

variable {σ : Type} {p q : Pool σ} {event : Event σ}

/-- The moves of a worker. -/
def Event.isMove : Event σ → Bool
  | .take _ | .act _ | .finish _ | .leave _ => true
  | _ => false

/-! ## Weight -/

theorem sum_weight_split (before after : List (Worker σ)) (worker : Worker σ) :
    ((before ++ worker :: after).map Worker.weight).sum =
      ((before ++ after).map Worker.weight).sum + worker.weight := by
  simp only [List.map_append, List.map_cons, List.sum_append, List.sum_cons]
  omega

theorem weight_submit {task : Task σ} (hstep : p.step (.submit task) = some q) :
    q.weight = p.weight + (task.actions.length + 2) := by
  obtain ⟨-, rfl⟩ := step_submit.1 hstep
  simp only [weight, List.map_append, List.sum_append, List.map_cons, List.map_nil, List.sum_cons,
    List.sum_nil]
  omega

theorem weight_of_step (hmove : event.isMove = true) (hstep : p.step event = some q) :
    p.weight = q.weight + 1 := by
  cases event with
  | take w =>
    obtain ⟨task, queue, hidle, hqueue, rfl⟩ := step_take.1 hstep
    obtain ⟨before, after, hworkers, rfl⟩ := Places.exists_split hidle
    simp only [weight, hworkers, Places.set_split, sum_weight_split, hqueue, List.map_cons,
      List.sum_cons, Worker.weight]
    omega
  | act w =>
    obtain ⟨task, action, rest, shared, hbusy, -, rfl⟩ := step_act.1 hstep
    obtain ⟨before, after, hworkers, rfl⟩ := Places.exists_split hbusy
    simp only [weight, hworkers, Places.set_split, sum_weight_split, Worker.weight,
      List.length_cons]
    omega
  | finish w =>
    obtain ⟨task, hbusy, rfl⟩ := step_finish.1 hstep
    obtain ⟨before, after, hworkers, rfl⟩ := Places.exists_split hbusy
    simp only [weight, conclude, hworkers, Places.set_split, sum_weight_split, Worker.weight,
      List.length_nil]
    omega
  | leave w =>
    obtain ⟨hidle, -, -, rfl⟩ := step_leave.1 hstep
    obtain ⟨before, after, hworkers, rfl⟩ := Places.exists_split hidle
    simp only [weight, hworkers, Places.eraseIdx_split, sum_weight_split, Worker.weight]
    omega
  | _ => cases hmove

/-! ## Workers that can move -/

theorem exists_move_of_busy {w : Nat} {task : Task σ} {rest : List (σ → Option σ)}
    (hw : p.workers[w]? = some (.busy task rest))
    (hnext : ∀ action ∈ rest.head?, ∃ shared, action p.shared = some shared) :
    ∃ event : Event σ, event.isMove = true ∧ ∃ q, p.step event = some q := by
  cases rest with
  | nil => exact ⟨.finish w, rfl, _, step_finish.2 ⟨task, hw, rfl⟩⟩
  | cons action rest =>
    obtain ⟨shared, hshared⟩ := hnext action rfl
    exact ⟨.act w, rfl, _, step_act.2 ⟨task, action, rest, shared, hw, hshared, rfl⟩⟩

theorem exists_move_of_waiting {w : Nat} (hw : p.workers[w]? = some .idle) (hqueue : p.queue ≠ []) :
    ∃ event : Event σ, event.isMove = true ∧ ∃ q, p.step event = some q := by
  obtain ⟨task, queue, htask⟩ := List.exists_cons_of_ne_nil hqueue
  exact ⟨.take w, rfl, _, step_take.2 ⟨task, queue, hw, htask, rfl⟩⟩

/-! ## The next move -/

theorem isMove_of_mem_movesOf {w : Nat} (h : event ∈ movesOf w) : event.isMove = true := by
  simp only [movesOf, List.mem_cons, List.not_mem_nil, or_false] at h
  rcases h with rfl | rfl | rfl | rfl <;> rfl

/-- A worker that moves has a place. -/
theorem exists_place_of_step (hmove : event.isMove = true) (hstep : p.step event = some q) :
    ∃ w < p.workers.length, event ∈ movesOf w := by
  cases event with
  | take w =>
    obtain ⟨task, queue, hidle, -⟩ := step_take.1 hstep
    exact ⟨w, (List.getElem?_eq_some_iff.1 hidle).1, by simp [movesOf]⟩
  | act w =>
    obtain ⟨task, action, rest, shared, hbusy, -⟩ := step_act.1 hstep
    exact ⟨w, (List.getElem?_eq_some_iff.1 hbusy).1, by simp [movesOf]⟩
  | finish w =>
    obtain ⟨task, hbusy, -⟩ := step_finish.1 hstep
    exact ⟨w, (List.getElem?_eq_some_iff.1 hbusy).1, by simp [movesOf]⟩
  | leave w =>
    obtain ⟨hidle, -⟩ := step_leave.1 hstep
    exact ⟨w, (List.getElem?_eq_some_iff.1 hidle).1, by simp [movesOf]⟩
  | _ => cases hmove

theorem exists_step_of_advance? (h : p.advance? = some q) :
    ∃ event : Event σ, event.isMove = true ∧ p.step event = some q := by
  obtain ⟨event, hmem, hstep⟩ := List.exists_of_findSome?_eq_some h
  obtain ⟨w, -, hevent⟩ := List.mem_flatMap.1 hmem
  exact ⟨event, isMove_of_mem_movesOf hevent, hstep⟩

theorem exists_advance?_of_step (hmove : event.isMove = true) (hstep : p.step event = some q) :
    ∃ next, p.advance? = some next := by
  obtain ⟨w, hw, hevent⟩ := exists_place_of_step hmove hstep
  rw [← Option.isSome_iff_exists, advance?, List.findSome?_isSome_iff]
  refine ⟨event, List.mem_flatMap.2 ⟨w, List.mem_range.2 hw, hevent⟩, ?_⟩
  rw [hstep, Option.isSome_some]

end PointTiles.Pool
