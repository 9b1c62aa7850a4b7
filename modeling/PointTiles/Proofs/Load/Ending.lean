import PointTiles.Proofs.Load.Sound

/-! # Loads end

* `Load.weight`: how many moves a load can make. A round costs no more than the cells it takes away
  from those not requested, of which there are at most `2 ^ 190` in the beginning.
* `Load.weight_lt_of_step`: every move takes from the weight.
* `Load.exists_advance?`: a load that has not returned can move on.
* `Load.docket_of_run`: what every step of a docket keeps holds after a run.
* `Load.exists_loadHierarchy`: the load that goes as `Load.run` does is one of them.
-/

namespace PointTiles
set_option autoImplicit false

variable {α : Type}

/-- How many moves the caller has before it, if this many cells are not requested. -/
def Phase.weight (cells : Nat) : Phase α → Nat
  | beginning => 10 * cells + 3
  | opening _ => 10 * cells + 2
  | submitting keys => 10 * cells + 6 * keys.length + 5
  | awaiting => 10 * cells + 4
  | gathering => 10 * cells + 3
  | reporting => 1
  | finished _ => 0

variable [Coordinate α]

namespace Load

/-- How many moves a load has before it. -/
def weight (load : Load α) : Nat :=
  load.pool.weight + load.phase.weight (2 ^ 190 - load.requested.length)

variable {source : Source} {root : Box α} {others : Prop} {load load' : Load α}
  {underway : Multiset (Address × Nat)} {done : Multiset Address}

omit [Coordinate α] in
theorem weight_initial_le (pool : Pool (Workspace α)) : (initial pool).weight ≤ moveLimit pool := by
  simp [weight, initial, moveLimit, Phase.weight]

/-! ## Every move takes from the weight -/

theorem weight_lt_of_callerStep (hrunning : load.pool.running = true)
    (hrequested : load'.requested.length ≤ 2 ^ 190)
    (hstep : load.callerStep source root = some load') : load'.weight < load.weight := by
  unfold callerStep at hstep
  split at hstep
  next hphase =>
    cases hstep
    simp only [weight, hphase, Phase.weight, Pool.weight, Pool.modifyShared]
    omega
  next keys hphase =>
    cases hstep
    simp only [List.length_append, List.length_map] at hrequested
    by_cases hnew : unrequested load.requested keys = []
    · simp only [weight, hphase, hnew, Phase.weight, List.isEmpty_nil, if_true]
      omega
    · -- A round of `n` pages costs the caller `6 * n + 3` moves and takes `10 * n` from the cells.
      have hlength := List.length_pos_iff.2 hnew
      simp only [weight, hphase, List.isEmpty_iff, hnew, if_false, Phase.weight, List.length_append,
        List.length_map]
      omega
  next hphase =>
    cases hstep
    simp only [weight, hphase, Phase.weight, List.length_nil]
    omega
  next key keys hphase =>
    simp only [Pool.submit?, hrunning, if_true] at hstep
    split at hstep
    next hrefused => cases hrefused
    next => cases hstep
    next pool hsubmitted =>
      cases hstep
      have hweight := Pool.weight_submit (Except.ok.inj hsubmitted)
      have hlength := (length_actions_mem source root key.address).2
      simp only [weight, hphase, Phase.weight, List.length_cons, hweight]
      omega
  next hphase =>
    obtain ⟨-, hload⟩ := Option.ite_none_right_eq_some.1 hstep
    cases hload
    simp only [weight, hphase, Phase.weight]
    omega
  next hphase =>
    cases hstep
    simp only [weight, hphase, Phase.weight, Pool.weight, Pool.modifyShared]
    omega
  next hphase =>
    cases hstep
    simp only [weight, hphase, Phase.weight]
    omega
  next => cases hstep

theorem weight_lt_of_step {event : Event α} (hown : event.isOwn = true)
    (hrunning : load.pool.running = true) (hrequested : load'.requested.length ≤ 2 ^ 190)
    (hstep : load.step source root event = some load') : load'.weight < load.weight := by
  cases event with
  | caller => exact weight_lt_of_callerStep hrunning hrequested hstep
  | pool event =>
    obtain ⟨pool, hpool, rfl⟩ := Option.map_eq_some_iff.1 hstep
    have hweight := Pool.weight_of_step hown hpool
    simp only [weight]
    omega

/-! ## A load that has not returned can move on -/

omit [Coordinate α] in
theorem result?_eq_some_iff {result : Except Fault Unit} :
    load.result? = some result ↔ load.phase = .finished result := by
  unfold result?
  cases load.phase <;> simp

/-- Every action that is left to a worker can be done. -/
theorem exists_action {task : Pool.Task (Workspace α)}
    {action : Workspace α → Option (Workspace α)}
    {rest : List (Workspace α → Option (Workspace α))} {mark : Option (Address × Nat)}
    (h : Working source root others (.busy task (action :: rest)) mark) (w : Workspace α) :
    ∃ w', action w = some w' := by
  cases h with
  | @page a k _ hk hrest =>
    have hthis : (pageTask source root a).actions[k]? = some action := by
      rw [← List.head?_drop, hrest, List.head?_cons]
    obtain ⟨w', haction, -⟩ := apply_action hthis w
    exact ⟨w', haction⟩
  | guest hothers hdiscreet =>
    obtain ⟨w', haction, -⟩ := hdiscreet action List.mem_cons_self w
    exact ⟨w', haction⟩

theorem Steady.exists_move (h : Steady source root others load underway)
    (hbusy : load.pool.isIdle = false) :
    ∃ event : Pool.Event (Workspace α), event.isMove = true ∧
      ∃ pool, load.pool.step event = some pool := by
  obtain ⟨hsound, hrunning, waiting, working, hqueue, hworkers, -⟩ := h
  -- A busy worker can go on; where all are idle, a task waits and the first worker can take it.
  by_cases hwork : ∃ (w : Nat) (task : _) (rest : _),
      load.pool.workers[w]? = some (Pool.Worker.busy task rest)
  · obtain ⟨w, task, rest, hw⟩ := hwork
    refine Pool.exists_move_of_busy hw fun action haction => ?_
    obtain ⟨rest, rfl⟩ := List.head?_eq_some_iff.1 haction
    obtain ⟨-, -, mark, -, -, -, -, -, -, -, hmark, -⟩ := Places.forall₂_split hworkers hw
    exact exists_action hmark load.pool.shared
  · have hidle : ∀ worker ∈ load.pool.workers, worker = .idle := by
      intro worker hmem
      obtain ⟨w, hw⟩ := List.mem_iff_getElem?.1 hmem
      cases worker with
      | idle => rfl
      | busy task rest => exact absurd ⟨w, task, rest, hw⟩ hwork
    have hwaiting : load.pool.queue ≠ [] := by
      intro hempty
      rw [hsound.isIdle_iff.2 ⟨hempty, hidle⟩] at hbusy
      cases hbusy
    have hpos : 0 < load.pool.workers.length := by
      rw [hsound.staffed hrunning]
      exact hsound.size_pos
    refine Pool.exists_move_of_waiting (w := 0) ?_ hwaiting
    rw [List.getElem?_eq_getElem hpos, hidle _ (List.getElem_mem hpos)]

/-- A load waits only for the workers. -/
theorem Steady.isIdle_eq_false (h : Steady source root others load underway)
    (hresult : load.result? = none) (hwait : load.callerStep source root = none) :
    load.pool.isIdle = false := by
  unfold callerStep at hwait
  split at hwait
  next => cases hwait
  next => cases hwait
  next => cases hwait
  next key keys hphase =>
    simp only [Pool.submit?, h.running, if_true] at hwait
    have hfull : ¬ load.pool.queue.length < load.pool.capacity := by
      intro hroom
      rw [Pool.step_submit.2 ⟨⟨h.running, hroom⟩, rfl⟩] at hwait
      cases hwait
    cases htasks : load.pool.queue with
    | nil => simp [htasks, h.sound.capacity_pos] at hfull
    | cons task queue => simp [Pool.isIdle, htasks]
  next hphase => simpa using hwait
  next => cases hwait
  next => cases hwait
  next result hphase => cases hresult.symm.trans (result?_eq_some_iff.2 hphase)

theorem Steady.exists_own (h : Steady source root others load underway)
    (hresult : load.result? = none) :
    ∃ event : Event α, event.isOwn = true ∧ (load.step source root event).isSome := by
  cases hcaller : load.callerStep source root with
  | some next => exact ⟨.caller, rfl, by simp [step, hcaller]⟩
  | none =>
    obtain ⟨event, hmove, pool, hpool⟩ := h.exists_move (h.isIdle_eq_false hresult hcaller)
    exact ⟨.pool event, hmove, by simp [step, hpool]⟩

theorem exists_step_of_advance? (h : load.advance? source root = some load') :
    ∃ event : Event α, event.isOwn = true ∧ load.step source root event = some load' := by
  unfold advance? at h
  split at h
  next next hcaller => exact ⟨.caller, rfl, hcaller.trans h⟩
  next hcaller =>
    split at h
    next => cases h
    next =>
      obtain ⟨pool, hpool, rfl⟩ := Option.map_eq_some_iff.1 h
      obtain ⟨event, hmove, hstep⟩ := Pool.exists_step_of_advance? hpool
      exact ⟨.pool event, hmove, by simp [step, hstep]⟩

theorem Steady.exists_advance? (h : Steady source root others load underway)
    (hresult : load.result? = none) : ∃ next, load.advance? source root = some next := by
  unfold advance?
  cases hcaller : load.callerStep source root with
  | some next => exact ⟨next, rfl⟩
  | none =>
    obtain ⟨event, hmove, pool, hpool⟩ := h.exists_move (h.isIdle_eq_false hresult hcaller)
    obtain ⟨next, hnext⟩ := Pool.exists_advance?_of_step hmove hpool
    simp only [hnext, Option.map_some]
    split
    next result hphase => cases hresult.symm.trans (result?_eq_some_iff.2 hphase)
    next => exact ⟨_, rfl⟩

/-! ## Runs -/

/-- The caller and the workers make these moves from the beginning of a load. -/
def IsRun (source : Source) (root : Box α) (pool : Pool (Workspace α)) (events : List (Event α))
    (load : Load α) : Prop :=
  (∀ event ∈ events, event.isOwn = true) ∧
    (initial pool).runEvents source root events = some load

/-- What every step of a docket keeps holds after a run. -/
theorem docket_of_run {motive : Docket α → Prop} {events : List (Event α)}
    (hmotive : ∀ {d d' : Docket α}, motive d → Docket.Step source root others d d' → motive d')
    (h : Steady source root others load underway) (hstart : motive (load.docket underway done))
    (hown : ∀ event ∈ events, event.isOwn = true)
    (hrun : load.runEvents source root events = some load') :
    ∃ underway' done', motive (load'.docket underway' done') ∧
      Steady source root others load' underway' := by
  induction events generalizing load underway done with
  | nil =>
    simp only [runEvents, Option.some.injEq] at hrun
    exact ⟨underway, done, hrun ▸ hstart, hrun ▸ h⟩
  | cons event events ih =>
    obtain ⟨next, hnext, hrest⟩ := Option.bind_eq_some_iff.1 hrun
    obtain ⟨hfirst, hothers⟩ := List.forall_mem_cons.1 hown
    obtain ⟨underway', done', hstep, hsteady⟩ := exists_step_of_step h hfirst hnext done
    exact ih hsteady (hmotive hstart hstep) hothers hrest

theorem length_add_weight_le {events : List (Event α)}
    (h : Steady source root others load underway)
    (hsound : (load.docket underway done).Sound source root)
    (hown : ∀ event ∈ events, event.isOwn = true)
    (hrun : load.runEvents source root events = some load') :
    events.length + load'.weight ≤ load.weight := by
  induction events generalizing load underway done with
  | nil =>
    simp only [runEvents, Option.some.injEq] at hrun
    simp [hrun]
  | cons event events ih =>
    obtain ⟨next, hnext, hrest⟩ := Option.bind_eq_some_iff.1 hrun
    obtain ⟨hfirst, hothers⟩ := List.forall_mem_cons.1 hown
    obtain ⟨underway', done', hstep, hsteady⟩ := exists_step_of_step h hfirst hnext done
    have hsound' := hsound.step hstep
    have hweight := weight_lt_of_step hfirst h.running hsound'.length_requested_le hnext
    have hlength := ih hsteady hsound' hothers hrest
    rw [List.length_cons]
    omega

/-- The next move takes from the weight and leaves the pages in order. -/
theorem Steady.step_of_advance? (h : Steady source root others load underway)
    (hsound : (load.docket underway done).Sound source root)
    (hadvance : load.advance? source root = some load') :
    ∃ event : Event α, event.isOwn = true ∧ load.step source root event = some load' ∧
      load'.weight < load.weight ∧ ∃ underway' done',
        (load'.docket underway' done').Sound source root ∧
          Steady source root others load' underway' := by
  obtain ⟨event, hown, hstep⟩ := exists_step_of_advance? hadvance
  obtain ⟨underway', done', hdocket, hsteady⟩ := exists_step_of_step h hown hstep done
  have hsound' := hsound.step hdocket
  have hweight := weight_lt_of_step hown h.running hsound'.length_requested_le hstep
  exact ⟨event, hown, hstep, hweight, underway', done', hsound', hsteady⟩

theorem Steady.isSome_result? (h : Steady source root others load underway)
    (hadvance : load.advance? source root = none) : load.result?.isSome := by
  by_contra hresult
  obtain ⟨next, hnext⟩ := h.exists_advance? (Option.not_isSome_iff_eq_none.1 hresult)
  cases hadvance.symm.trans hnext

/-- Enough moves bring a load to its end, and they are moves of the caller and the workers. -/
theorem exists_run_of_advance {moves : Nat} (h : Steady source root others load underway)
    (hsound : (load.docket underway done).Sound source root) (hmoves : load.weight ≤ moves) :
    (load.advance source root moves).result?.isSome ∧
      ∃ events : List (Event α), (∀ event ∈ events, event.isOwn = true) ∧
        load.runEvents source root events = some (load.advance source root moves) := by
  induction moves generalizing load underway done with
  | zero =>
    refine ⟨h.isSome_result? ?_, [], nofun, rfl⟩
    cases hadvance : load.advance? source root with
    | none => rfl
    | some next =>
      obtain ⟨event, -, -, hweight, -⟩ := h.step_of_advance? hsound hadvance
      omega
  | succ moves ih =>
    rw [advance]
    cases hadvance : load.advance? source root with
    | none => exact ⟨h.isSome_result? hadvance, [], nofun, rfl⟩
    | some next =>
      obtain ⟨event, hown, hstep, hweight, underway', done', hsound', hsteady⟩ :=
        h.step_of_advance? hsound hadvance
      obtain ⟨hresult, events, hevents, hrun⟩ := ih hsteady hsound' (by omega)
      refine ⟨hresult, event :: events, List.forall_mem_cons.2 ⟨hown, hevents⟩, ?_⟩
      rw [runEvents, hstep, Option.bind_some]
      exact hrun

/-- The schedule in which the caller goes first brings a load to its end. -/
theorem Steady.exists_run {pool : Pool (Workspace α)}
    (h : Steady source root others (initial pool) 0) :
    ∃ events, IsRun source root pool events (run source root pool) ∧
      (run source root pool).result?.isSome := by
  obtain ⟨hresult, events, hown, hrun⟩ := exists_run_of_advance h
    (Docket.sound_initial source root pool) (weight_initial_le pool)
  exact ⟨events, ⟨hown, hrun⟩, hresult⟩

/-- A load that comes to its end in this schedule is what `loadHierarchy` gives. -/
theorem exists_loadHierarchy {pool : Pool (Workspace α)} {events : List (Event α)}
    (hrun : IsRun source root pool events (run source root pool))
    (hresult : (run source root pool).result?.isSome) :
    ∃ events load result, IsRun source root pool events load ∧ load.result? = some result ∧
      loadHierarchy source root pool = (load.pool, result) := by
  obtain ⟨result, hreturned⟩ := Option.isSome_iff_exists.1 hresult
  refine ⟨events, run source root pool, result, hrun, hreturned, ?_⟩
  rw [loadHierarchy, hreturned, Option.getD_some]

end Load

end PointTiles
