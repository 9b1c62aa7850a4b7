import PointTiles.Proofs.Load.Messages

/-! # A load reports the pages that failed

* `refusal`, `refused_of_run`: on a stopped pool the caller makes three moves and is refused.
* `failures_reported`: the result of a load, and what it leaves in the pool's list of messages.
-/

namespace PointTiles.Load
set_option autoImplicit false

-- Powers of numbers are those of the core library, whatever else is imported.
attribute [local instance (high)] instPowNat

variable {α : Type} [Coordinate α]

/-! ## Stopped pools -/

/-- A load on a stopped pool after a number of moves. -/
def refusal (root : Box α) (pool : Pool (Workspace α)) : Nat → Load α
  | 0 => initial pool
  | 1 => ⟨cleared, .opening [Key.root root], [], pool.errors.length⟩
  | 2 => ⟨cleared, .submitting [Key.root root], [Address.root], pool.errors.length⟩
  | _ => ⟨cleared, .finished (.error .stoppedPool), [Address.root], pool.errors.length⟩
where
  cleared : Pool (Workspace α) := pool.modifyShared fun w => { w with discovered := [], fetched := [] }

variable {source : Source} {root : Box α} {pool : Pool (Workspace α)} {load : Load α}

/-- Where there are no workers, only the caller moves. -/
theorem eq_caller_of_step {event : Event α} {load' : Load α}
    (hworkers : load.pool.workers = []) (hown : event.isOwn = true)
    (hstep : load.step source root event = some load') : event = .caller := by
  cases event with
  | caller => rfl
  | pool event =>
    obtain ⟨next, hnext, -⟩ := Option.map_eq_some_iff.1 hstep
    obtain ⟨w, hw, -⟩ := Pool.exists_place_of_step hown hnext
    simp [hworkers] at hw

theorem callerStep_refusal (source : Source) (root : Box α) (hstopped : pool.running = false)
    {n : Nat} (hn : n < 3) :
    (refusal root pool n).callerStep source root = some (refusal root pool (n + 1)) := by
  match n, hn with
  | 0, _ => rfl
  | 1, _ => rfl
  | 2, _ =>
    have hrefused : (refusal.cleared pool).submit? (pageTask source root Address.root) =
        .error .stoppedPool := by
      simp [Pool.submit?, refusal.cleared, Pool.modifyShared, hstopped]
    simp only [refusal, callerStep]
    rw [show (Key.root root).address = Address.root from rfl, hrefused]

omit [Coordinate α] in
theorem workers_refusal (root : Box α) (pool : Pool (Workspace α)) (n : Nat) :
    (refusal root pool n).pool.workers = pool.workers := by
  match n with
  | 0 | 1 | 2 | _ + 3 => rfl

omit [Coordinate α] in
theorem not_finished_refusal (root : Box α) (pool : Pool (Workspace α)) {n : Nat} (hn : n < 3)
    (result : Except Fault Unit) : (refusal root pool n).phase ≠ .finished result := by
  match n, hn with
  | 0, _ | 1, _ | 2, _ => exact nofun

theorem refusal_of_run (hstopped : pool.running = false) (hworkers : pool.workers = [])
    {events : List (Event α)} {n : Nat} (hn : n ≤ 3) (hown : ∀ event ∈ events, event.isOwn = true)
    (hrun : (refusal root pool n).runEvents source root events = some load) :
    n + events.length ≤ 3 ∧ load = refusal root pool (n + events.length) := by
  induction events generalizing n with
  | nil =>
    simp only [runEvents, Option.some.injEq] at hrun
    exact ⟨hn, hrun.symm⟩
  | cons event events ih =>
    obtain ⟨next, hnext, hrest⟩ := Option.bind_eq_some_iff.1 hrun
    obtain ⟨hfirst, hothers⟩ := List.forall_mem_cons.1 hown
    obtain rfl := eq_caller_of_step ((workers_refusal root pool n).trans hworkers) hfirst hnext
    have hbefore : n < 3 := by
      refine Nat.lt_of_le_of_ne hn ?_
      rintro rfl
      cases hnext
    cases (callerStep_refusal source root hstopped hbefore).symm.trans hnext
    obtain ⟨hlength, hload⟩ := ih hbefore hothers hrest
    rw [List.length_cons]
    exact ⟨by omega, by rw [hload]; congr 1; omega⟩

theorem exists_run_refusal (source : Source) (root : Box α) (hstopped : pool.running = false)
    {n moves : Nat} (hn : n ≤ 3) (hmoves : 3 ≤ n + moves) :
    ∃ events : List (Event α), (∀ event ∈ events, event.isOwn = true) ∧
      (refusal root pool n).advance source root moves = refusal root pool 3 ∧
      (refusal root pool n).runEvents source root events = some (refusal root pool 3) := by
  induction moves generalizing n with
  | zero =>
    obtain rfl : n = 3 := Nat.le_antisymm hn hmoves
    exact ⟨[], nofun, rfl, rfl⟩
  | succ moves ih =>
    by_cases hbefore : n < 3
    · have hcaller := callerStep_refusal source root hstopped hbefore
      obtain ⟨events, hown, hadvance, hrun⟩ := ih (n := n + 1) hbefore (by omega)
      refine ⟨.caller :: events, List.forall_mem_cons.2 ⟨rfl, hown⟩, ?_, ?_⟩
      · rw [advance, advance?, hcaller]
        exact hadvance
      · rw [runEvents, step, hcaller]
        exact hrun
    · obtain rfl : n = 3 := Nat.le_antisymm hn (Nat.le_of_not_lt hbefore)
      exact ⟨[], nofun, rfl, rfl⟩

/-- A load on a stopped pool goes on to its refusal, and changes nothing. -/
theorem refused_of_run (hstopped : pool.running = false) (hworkers : pool.workers = [])
    {events : List (Event α)} (hown : ∀ event ∈ events, event.isOwn = true)
    (hrun : (initial pool).runEvents source root events = some load) :
    events.length ≤ 3 ∧
      (load.result? = none → ∃ event : Event α, event.isOwn = true ∧
        (load.step source root event).isSome) ∧
      ∀ result, load.result? = some result → result = .error .stoppedPool ∧
        load.pool.shared.fetched = [] ∧ load.pool.shared.hierarchy = pool.shared.hierarchy ∧
        load.pool.errors = pool.errors := by
  obtain ⟨hlength, rfl⟩ := refusal_of_run (n := 0) hstopped hworkers (Nat.zero_le 3) hown hrun
  rw [Nat.zero_add] at hlength ⊢
  refine ⟨hlength, fun hresult => ?_, fun result hresult => ?_⟩
  · have hbefore : events.length < 3 := by
      refine Nat.lt_of_le_of_ne hlength fun hlast => ?_
      rw [hlast] at hresult
      cases hresult
    exact ⟨.caller, rfl, by simp [step, callerStep_refusal source root hstopped hbefore]⟩
  · have hphase := result?_eq_some_iff.1 hresult
    have hlast : events.length = 3 := by
      refine Nat.le_antisymm hlength (Nat.le_of_not_lt fun hbefore => ?_)
      exact not_finished_refusal root pool hbefore result hphase
    rw [hlast] at hphase ⊢
    cases hphase
    exact ⟨rfl, rfl, rfl, rfl⟩

theorem exists_run_of_stopped (source : Source) (root : Box α) (hstopped : pool.running = false) :
    ∃ events, IsRun source root pool events (run source root pool) ∧
      (run source root pool).result?.isSome := by
  have hmoves : 3 ≤ 0 + moveLimit pool := by
    simp only [moveLimit]
    omega
  obtain ⟨events, hown, hadvance, hrun⟩ :=
    exists_run_refusal source root hstopped (Nat.zero_le 3) hmoves
  have hload : run source root pool = refusal root pool 3 := hadvance
  rw [hload]
  exact ⟨events, ⟨hown, hrun⟩, rfl⟩

/-! ## Results -/

/-- The result says whether there are pages that failed. -/
theorem report_of_fails {failed : List Address} {messages : List String}
    (hmessages : List.Forall₂ (PageFails source) failed messages) :
    (failed = [] → report messages = .ok ()) ∧
      (failed ≠ [] → report messages = .error (.taskFailures messages)) := by
  cases hmessages with
  | nil => exact ⟨fun _ => rfl, fun hsome => absurd rfl hsome⟩
  | cons => exact ⟨fun hnone => absurd hnone (List.cons_ne_nil _ _), fun _ => rfl⟩

/-- A load on a running pool that does nothing else comes to an end. It succeeds if no page fetched
has failed. If some have, it reports one message for each of them and no earlier one, and those are
what the pool's messages have gained. On a stopped pool it is refused, with nothing fetched and
nothing changed. `loadHierarchy` gives one such load. -/
theorem failures_reported (source : Source) (root : Box α) {pool : Pool (Workspace α)}
    (hsound : pool.Sound) :
    (pool.running = true → pool.isIdle = true →
      (∀ events load, IsRun source root pool events load →
        events.length ≤ moveLimit pool ∧
        (load.result? = none → ∃ event : Event α, event.isOwn = true ∧
          (load.step source root event).isSome) ∧
        ∀ result, load.result? = some result → ∃ failed messages, failed.Nodup ∧
          (∀ a, a ∈ failed ↔ a ∈ load.pool.shared.fetched ∧ ∃ message, PageFails source a message) ∧
          List.Forall₂ (PageFails source) failed messages ∧
          load.pool.errors = pool.errors ++ messages ∧
          (failed = [] → result = .ok ()) ∧
          (failed ≠ [] → result = .error (.taskFailures messages))) ∧
      ∃ events load result, IsRun source root pool events load ∧ load.result? = some result ∧
        loadHierarchy source root pool = (load.pool, result)) ∧
    (pool.running = false → pool.workers = [] →
      (∀ events load, IsRun source root pool events load →
        events.length ≤ 3 ∧
        (load.result? = none → ∃ event : Event α, event.isOwn = true ∧
          (load.step source root event).isSome) ∧
        ∀ result, load.result? = some result → result = .error .stoppedPool ∧
          load.pool.shared.fetched = [] ∧ load.pool.shared.hierarchy = pool.shared.hierarchy ∧
          load.pool.errors = pool.errors) ∧
      ∃ events load result, IsRun source root pool events load ∧ load.result? = some result ∧
        loadHierarchy source root pool = (load.pool, result)) := by
  constructor
  · intro hrunning hidle
    have hsteady : Steady source root False (initial pool) 0 :=
      ⟨hsound, hrunning, staff_of_isIdle hsound hidle⟩
    have hstart := Docket.sound_initial source root pool
    have hlimit := weight_initial_le pool
    constructor
    · rintro events load ⟨hown, hrun⟩
      obtain ⟨underway, done, ⟨hload, htold⟩, hnow⟩ :=
        docket_of_run (motive := fun d => d.Sound source root ∧ d.Told source root pool.errors)
          (fun hd hstep => ⟨hd.1.step hstep, hd.2.step hd.1 hstep⟩) hsteady
          ⟨hstart, Docket.told_initial source root pool⟩ hown hrun
      have hlength := length_add_weight_le hsteady hstart hown hrun
      refine ⟨by omega, hnow.exists_own, fun result hresult => ?_⟩
      obtain ⟨failed, messages, hnodup, hfailed, hmessages, herrors, hreport⟩ :=
        htold.exists_failed hload (result?_eq_some_iff.1 hresult)
      rw [hreport]
      exact ⟨failed, messages, hnodup, hfailed, hmessages, herrors, report_of_fails hmessages⟩
    · obtain ⟨events, hrun, hresult⟩ := hsteady.exists_run
      exact exists_loadHierarchy hrun hresult
  · intro hstopped hworkers
    obtain ⟨events, hrun, hresult⟩ := exists_run_of_stopped source root hstopped
    exact ⟨fun events load hload => refused_of_run hstopped hworkers hload.1 hload.2,
      exists_loadHierarchy hrun hresult⟩

/-- Of the two pages that the root's points to, one is missing and the other has a key that is in no
grid. -/
def faulty : Source := fun a =>
  if a = Address.root then .ok "\x7b\"1-0-0-0\": -1, \"1-1-0-0\": -1\x7d"
  else if a.cell.x = 0 then .error (.failed "page missing" [])
  else .ok "\x7b\"1-2-0-0\": 3\x7d"

/-- Two workers, the second of which ends first, on a pool with an earlier message; and a pool that is
stopped. -/
theorem failures_reported_in_any_order :
    let own := ["Invalid EPT key: 1-2-0-0 lies outside the depth 1 grid",
      "fetching hierarchy page 1-0-0-0: page missing"]
    let pool : Pool (Workspace Rat) :=
      { Pool.create 2 1 (.ofHierarchy .empty) with errors := ["Unknown error"] }
    let still : Pool (Workspace Rat) := Pool.stopped 2 1 (.ofHierarchy .empty)
    pool.Sound ∧ pool.running = true ∧ pool.isIdle = true ∧
      (∃ events load, IsRun faulty Box.zero pool events load ∧
        load.result? = some (.error (.taskFailures own)) ∧
        load.pool.errors = "Unknown error" :: own) ∧
      still.Sound ∧ still.running = false ∧ still.workers = [] ∧
      (loadHierarchy faulty Box.zero still).2 = .error .stoppedPool := by
  intro own pool still
  let events : List (Event Rat) := [.caller, .caller, .caller, .pool (.take 0), .pool (.act 0),
    .pool (.act 0), .pool (.act 0), .pool (.finish 0), .caller, .caller, .caller, .caller, .caller,
    .pool (.take 0), .caller, .pool (.take 1), .pool (.act 1), .pool (.act 1), .caller,
    .pool (.finish 1), .pool (.act 0), .pool (.finish 0), .caller, .caller, .caller, .caller]
  have hpast : Pool.run [.start, .submit ⟨[], some (.brokeOff none)⟩, .take 1, .finish 1]
      (Pool.stopped 2 1 (.ofHierarchy .empty)) = some pool := rfl
  have hsound : pool.Sound := Pool.sound_of_run hpast
  have hstill : still.Sound := Pool.sound_stopped 2 1 _
  have hview : ((initial pool).runEvents faulty Box.zero events).map
      (fun load => (load.result?.isSome, load.pool.errors, load.pool.shared.fetched)) =
      some (true, "Unknown error" :: own, [Address.root, ⟨1, ⟨1, 0, 0⟩⟩, ⟨1, ⟨0, 0, 0⟩⟩]) := by
    decide +kernel
  obtain ⟨load, hrun, hload⟩ := Option.map_eq_some_iff.1 hview
  simp only [Prod.mk.injEq] at hload
  obtain ⟨hreturned, herrors, -⟩ := hload
  have hload : IsRun faulty Box.zero pool events load := ⟨by decide, hrun⟩
  obtain ⟨result, hresult⟩ := Option.isSome_iff_exists.1 hreturned
  obtain ⟨hreport, -⟩ := (failures_reported faulty Box.zero hsound).1 rfl rfl
  obtain ⟨-, -, hreport⟩ := hreport events load hload
  obtain ⟨failed, messages, -, -, hmessages, hgained, -, hfailure⟩ := hreport result hresult
  have hown : messages = own := by
    rw [herrors] at hgained
    exact (List.cons.inj hgained).2.symm
  have hsome : failed ≠ [] := by
    rintro rfl
    rw [hown, List.forall₂_nil_left_iff] at hmessages
    exact absurd hmessages (by simp [own])
  obtain ⟨hrefused, events', load', result', hrun', hresult', hcall⟩ :=
    (failures_reported faulty Box.zero hstill).2 rfl rfl
  obtain ⟨hstopped, -⟩ := (hrefused events' load' hrun').2.2 result' hresult'
  refine ⟨hsound, rfl, rfl, ⟨events, load, hload, ?_, herrors⟩, hstill, rfl, rfl, ?_⟩
  · rw [hresult, hfailure hsome, hown]
  · rw [hcall, hstopped]

end PointTiles.Load
