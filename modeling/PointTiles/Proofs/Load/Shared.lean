import PointTiles.Proofs.Load.Failures
import PointTiles.Proofs.Load.Guests
import PointTiles.Proofs.Pool.Settling

/-! # What a load reports on a shared pool

* `Refusing`: a load that finds its pool stopped goes on to its refusal.
* `Roster.right_arrive`: the roster agrees with a load that has begun.
* `Roster.Right.exists_failed`: when the load is about to report, each of its pages that failed has
  left its message.
* `Roster.Right.report`: it reports the messages after the place where they ended in the beginning.
* `messages_on_shared_pool`: which of these are its own.
* `messages_mistaken`: others may be among them, and some of its own may be missing.
-/

namespace PointTiles.Load
set_option autoImplicit false

variable {α : Type} [Coordinate α]

/-! ## Stopped pools -/

/-- The load is going on to its refusal. -/
structure Refusing (root : Box α) (load : Load α) : Prop where
  stopped : load.pool.running = false
  phase : (load.phase = .opening [Key.root root] ∧ load.requested = []) ∨
    (∃ key keys, load.phase = .submitting (key :: keys)) ∨
    load.phase = .finished (.error .stoppedPool)

namespace Refusing

variable {source : Source} {root : Box α} {load load' : Load α}

theorem caller (h : Refusing root load) (hstep : load.callerStep source root = some load') :
    Refusing root load' := by
  obtain ⟨hstopped, ⟨hphase, hrequested⟩ | ⟨key, keys, hphase⟩ | hphase⟩ := h
  · rw [callerStep, hphase] at hstep
    cases hstep
    refine ⟨hstopped, .inr (.inl ⟨Key.root root, [], ?_⟩)⟩
    rw [hrequested]
    rfl
  · have hrefused : load.pool.submit? (pageTask source root key.address) = .error .stoppedPool := by
      rw [Pool.submit?, hstopped]
      rfl
    simp only [callerStep, hphase, hrefused] at hstep
    cases hstep
    exact ⟨hstopped, .inr (.inr rfl)⟩
  · rw [callerStep, hphase] at hstep
    cases hstep

theorem step {event : Event α} (h : Refusing root load)
    (hevent : event.isOwn = true ∨ event.isForeign = true)
    (hstep : load.step source root event = some load') : Refusing root load' := by
  cases event with
  | caller => exact h.caller hstep
  | pool event =>
    obtain ⟨pool, hpool, rfl⟩ := Option.map_eq_some_iff.1 hstep
    have hothers : event.isOwners = false := by
      cases event with
      | halt | start | resize => simp [Event.isOwn, Event.isForeign, Pool.Event.isMove] at hevent
      | _ => rfl
    exact ⟨(Pool.step_kept hothers hpool).1.trans h.stopped, h.phase⟩

theorem run {events : List (Event α)} (h : Refusing root load)
    (hevents : ∀ event ∈ events, event.isOwn = true ∨ event.isForeign = true)
    (hrun : load.runEvents source root events = some load') : Refusing root load' := by
  induction events generalizing load with
  | nil =>
    cases hrun
    exact h
  | cons event events ih =>
    obtain ⟨next, hnext, hrest⟩ := Option.bind_eq_some_iff.1 hrun
    obtain ⟨hfirst, hothers⟩ := List.forall_mem_cons.1 hevents
    exact ih (h.step hfirst hnext) hothers hrest

omit [Coordinate α] in
/-- It returns with nothing but the refusal. -/
theorem result (h : Refusing root load) {result : Except Fault Unit}
    (hresult : load.result? = some result) : result = .error .stoppedPool := by
  have hphase := result?_eq_some_iff.1 hresult
  obtain ⟨-, ⟨hopening, -⟩ | ⟨key, keys, hsubmitting⟩ | hfinished⟩ := h
  · cases hphase.symm.trans hopening
  · cases hphase.symm.trans hsubmitting
  · cases hphase.symm.trans hfinished
    rfl

end Refusing

/-! ## Running pools -/

/-- The task of somebody else: it is in the pool when the load is called, or is submitted later. -/
def Guest (pool : Pool (Workspace α)) (events : List (Event α)) (task : Pool.Task (Workspace α)) :
    Prop :=
  task ∈ pool.queue ∨ (∃ rest, .busy task rest ∈ pool.workers) ∨ .pool (.submit task) ∈ events

namespace Roster

variable {source : Source} {root : Box α} {guest : Pool.Task (Workspace α) → Prop}
  {before : Nat} {load returned : Load α} {r : Roster} {pool : Pool (Workspace α)}

theorem right_arrive (source : Source) (root : Box α) (hsound : pool.Sound)
    (hrunning : pool.running = true) (hqueue : ∀ task ∈ pool.queue, guest task)
    (hworkers : ∀ task rest, .busy task rest ∈ pool.workers → guest task)
    (hbegin : (initial pool).step source root .caller = some load) :
    Right source root guest pool.errors.length load (arrive pool) := by
  have hmarks : marks (arrive pool).waiting + marks (arrive pool).working = 0 := by
    rw [arrive, marks_map_none, marks_map_none]
    rfl
  have hcleared := hsound.modifyShared fun w => { w with discovered := [], fetched := [] }
  cases hbegin
  refine ⟨hcleared, hrunning, ?_, ?_, ?_, List.nodup_nil, fun _ => hmarks, nofun, nofun, ?_, rfl,
    nofun⟩
  · refine List.forall₂_map_right_iff.2 (List.forall₂_same.2 fun task htask => ?_)
    exact .guest (hqueue task htask)
  · refine List.forall₂_map_right_iff.2 (List.forall₂_same.2 fun worker hworker => ?_)
    cases worker with
    | idle => exact .idle
    | busy task rest => exact .busy (.guest (hworkers task rest hworker)) rest
  · rw [hmarks]
    rfl
  · simp [arrive, messages, initial, Pool.modifyShared]

namespace Right

theorem messages_own (h : Right source root guest before load r) :
    messages (Roster.own r.ended) =
      (r.ended.filterMap Prod.fst).filterMap (pageMessage? source root) := by
  rw [messages, Roster.own, List.filterMap_filter, List.filterMap_filterMap]
  refine List.filterMap_congr fun entry hentry => ?_
  obtain ⟨_ | a, message?⟩ := entry
  · rfl
  · exact h.own a message? hentry

theorem ended_perm (h : Right source root guest before load r) (hphase : load.phase = .reporting) :
    (r.ended.filterMap Prod.fst).Perm load.requested := by
  have haccount := h.account
  rw [h.quiet (by rw [hphase]; rfl), hphase] at haccount
  simp only [Phase.toSubmit, List.map_nil, Multiset.coe_nil, Multiset.add_zero] at haccount
  exact (Multiset.coe_eq_coe.1 haccount).symm

/-- When the load is about to report, each of its pages that failed has left its message. -/
theorem exists_failed (h : Right source root guest before load r)
    (hphase : load.phase = .reporting) :
    ∃ failed, failed.Nodup ∧
      (∀ a, a ∈ failed ↔ a ∈ load.requested ∧ ∃ message, PageFails source a message) ∧
      List.Forall₂ (PageFails source) failed (messages (Roster.own r.ended)) := by
  have hperm := h.ended_perm hphase
  have hfails := Places.forall₂_filterMap (pageMessage? source root) (r.ended.filterMap Prod.fst)
  refine ⟨(r.ended.filterMap Prod.fst).filter fun a => (pageMessage? source root a).isSome,
    (hperm.nodup_iff.2 h.nodup).filter _, fun a => ?_, ?_⟩
  · rw [List.mem_filter, hperm.mem_iff, Option.isSome_iff_exists]
    exact and_congr_right fun _ => exists_congr fun _ => pageMessage?_eq_some_iff
  · rw [h.messages_own]
    exact hfails.imp fun _ _ hmessage => pageMessage?_eq_some_iff.1 hmessage

/-- A load on a running pool returns only by its report. -/
theorem report (h : Right source root guest before load r)
    (hlast : load.callerStep source root = some returned) {result : Except Fault Unit}
    (hresult : returned.result? = some result) :
    load.phase = .reporting ∧
      result = Load.report ((r.earlier ++ messages r.recent).drop before) := by
  have hphase := result?_eq_some_iff.1 hresult
  unfold callerStep at hlast
  split at hlast
  next =>
    cases hlast
    cases hphase
  next keys hopening =>
    cases hlast
    simp only at hphase
    split at hphase <;> cases hphase
  next =>
    cases hlast
    cases hphase
  next =>
    split at hlast
    next hrefused => simp [Pool.submit?, h.running] at hrefused
    next => cases hlast
    next =>
      cases hlast
      cases hphase
  next =>
    obtain ⟨-, hload⟩ := Option.ite_none_right_eq_some.1 hlast
    cases hload
    cases hphase
  next =>
    cases hlast
    cases hphase
  next hreporting =>
    cases hlast
    cases hphase
    rw [← h.errors, ← h.offset]
    exact ⟨hreporting, rfl⟩
  next => cases hlast

end Right

end Roster

/-! ## Pools and results to try -/

/-- No page can be had. -/
def missing : Source := fun _ => .error (.failed "page missing" [])

/-- A pool with two workers and an earlier message, the first of which does this task. -/
def occupied (task : Pool.Task (Workspace Rat)) : Pool (Workspace Rat) :=
  { Pool.create 2 1 (.ofHierarchy .empty) with
    errors := ["Unknown error"], outstanding := 1, workers := [.busy task task.actions, .idle] }

theorem sound_occupied (task : Pool.Task (Workspace Rat)) : (occupied task).Sound := by
  have hpast : Pool.run [.start, .submit ⟨[], some (.brokeOff none)⟩, .take 1, .finish 1,
      .submit task, .take 0] (Pool.stopped 2 1 (.ofHierarchy .empty)) = some (occupied task) := rfl
  exact Pool.sound_of_run hpast

/-- The messages that the load has reported. -/
def reported? (load : Load α) : Option (List String) :=
  match load.phase with
  | .finished (.ok ()) => some []
  | .finished (.error (.taskFailures (message :: messages))) => some (message :: messages)
  | _ => none

omit [Coordinate α] in
theorem result?_of_reported? {load : Load α} {messages : List String}
    (h : load.reported? = some messages) : load.result? = some (report messages) := by
  unfold reported? at h
  split at h
  next hphase =>
    cases h
    rw [result?, hphase]
    rfl
  next hphase =>
    cases h
    rw [result?, hphase]
    rfl
  next => cases h

/-! ## Results -/

theorem report_inj {messages messages' : List String} (h : report messages = report messages') :
    messages = messages' := by
  cases messages with
  | nil =>
    cases messages' with
    | nil => rfl
    | cons => cases h
  | cons =>
    cases messages' with
    | nil => cases h
    | cons => exact Fault.taskFailures.inj (Except.error.inj h)

/-- The pages of a load that fail leave their messages, whatever others do meanwhile. If nobody
drops messages, the load reports these together with those that tasks of others have left since it
was called, so that it reports its own alone exactly where the others left none. Once messages have
been dropped it reports the later ones, less as many as there were in the beginning. -/
theorem messages_on_shared_pool (source : Source) (root : Box α) {pool : Pool (Workspace α)}
    (hsound : pool.Sound) {events : List (Event α)}
    (hevents : ∀ event ∈ events, event.isOwn = true ∨ event.isForeign = true)
    {load returned : Load α}
    (hrun : (initial pool).runEvents source root (.caller :: events) = some load)
    (hlast : load.step source root .caller = some returned) {result : Except Fault Unit}
    (hresult : returned.result? = some result) :
    (pool.running = false → result = .error .stoppedPool) ∧
    (pool.running = true → ∃ r failed,
      watch source root (.caller :: events) (initial pool) (.arrive pool) = some (load, r) ∧
      (r.ended.filterMap Prod.fst).Perm load.requested ∧ failed.Nodup ∧
      (∀ a, a ∈ failed ↔ a ∈ load.requested ∧ ∃ message, PageFails source a message) ∧
      List.Forall₂ (PageFails source) failed (Roster.messages (Roster.own r.ended)) ∧
      (∀ message, (none, some message) ∈ r.ended →
        ∃ task, Guest pool events task ∧ task.trouble.map Trouble.message = some message) ∧
      (.pool .clearErrors ∉ events → result = report (Roster.messages r.ended) ∧
        (result = report (Roster.messages (Roster.own r.ended)) ↔
          ∀ message, (none, some message) ∉ r.ended)) ∧
      (.pool .clearErrors ∈ events →
        result = report ((Roster.messages r.recent).drop pool.errors.length))) := by
  obtain ⟨first, hfirst, hrest⟩ := Option.bind_eq_some_iff.1 hrun
  constructor
  · intro hstopped
    have hrefusing : Refusing root first := by
      cases hfirst
      exact ⟨hstopped, .inl ⟨rfl, rfl⟩⟩
    exact ((hrefusing.run hevents hrest).caller hlast).result hresult
  · intro hrunning
    have hstart : Roster.Right source root (Guest pool events) pool.errors.length first
        (.arrive pool) :=
      Roster.right_arrive source root hsound hrunning (fun task => .inl)
        (fun task rest hbusy => .inr (.inl ⟨rest, hbusy⟩)) hfirst
    obtain ⟨r, hwatch⟩ := exists_watch (.arrive pool) hrest
    have hright := hstart.run hevents (fun task => .inr ∘ .inr) hwatch
    obtain ⟨hphase, hreport⟩ := hright.report hlast hresult
    obtain ⟨failed, hnodup, hfailed, hmessages⟩ := hright.exists_failed hphase
    refine ⟨r, failed, ?_, hright.ended_perm hphase, hnodup, hfailed, hmessages, hright.others,
      fun hkept => ?_, fun hdropped => ?_⟩
    · rw [watch, hfirst]
      exact hwatch
    · obtain ⟨hrecent, hearlier⟩ := Roster.kept_of_watch hwatch hkept rfl
      rw [hrecent, hearlier, Roster.arrive, List.drop_left] at hreport
      refine ⟨hreport, ?_⟩
      rw [hreport, ← Roster.messages_own_eq_iff]
      exact ⟨fun heq => (report_inj heq).symm, fun heq => congrArg report heq.symm⟩
    · rw [Roster.dropped_of_watch hwatch (.inr hdropped), List.nil_append] at hreport
      exact hreport

/-- The task of somebody else, there when the load is called, and that of the only page both leave a
message. -/
theorem messages_on_shared_pool_of_both :
    let unrelated : Pool.Task (Workspace Rat) := ⟨[], some (.brokeOff (some "unrelated"))⟩
    let own := "fetching hierarchy page 0-0-0-0: page missing"
    (occupied unrelated).Sound ∧ (occupied unrelated).running = true ∧
      ∃ events load returned result,
      (∀ event ∈ events, event.isOwn = true ∨ event.isForeign = true) ∧
      (initial (occupied unrelated)).runEvents missing Box.zero (.caller :: events) = some load ∧
      load.step missing Box.zero .caller = some returned ∧ returned.result? = some result ∧
      result = .error (.taskFailures ["unrelated", own]) ∧ result ≠ report [own] := by
  intro unrelated own
  let events : List (Event Rat) := [.caller, .caller, .caller, .pool (.finish 0), .pool (.take 1),
    .pool (.act 1), .pool (.finish 1), .caller, .caller, .caller]
  have hview : ((initial (occupied unrelated)).runEvents missing Box.zero
      (.caller :: events)).bind (fun load => (load.step missing Box.zero .caller).map
        fun returned => returned.result?.isSome) = some true := by
    decide +kernel
  have hended : (watch missing Box.zero (.caller :: events) (initial (occupied unrelated))
      (.arrive (occupied unrelated))).map (fun now => now.2.ended) =
        some [(none, some "unrelated"), (some Address.root, some own)] := by
    decide +kernel
  obtain ⟨load, hrun, hload⟩ := Option.bind_eq_some_iff.1 hview
  obtain ⟨returned, hlast, hreturned⟩ := Option.map_eq_some_iff.1 hload
  obtain ⟨result, hresult⟩ := Option.isSome_iff_exists.1 hreturned
  have hevents : ∀ event ∈ events, event.isOwn = true ∨ event.isForeign = true := by decide
  obtain ⟨-, hreport⟩ := messages_on_shared_pool missing Box.zero (sound_occupied unrelated) hevents
    hrun hlast hresult
  obtain ⟨r, failed, hwatch, -, -, -, -, -, hkept, -⟩ := hreport rfl
  rw [hwatch] at hended
  have hended : r.ended = [(none, some "unrelated"), (some Address.root, some own)] :=
    Option.some.inj hended
  obtain ⟨hall, hown⟩ := hkept (by simp [events])
  rw [hended] at hall hown
  refine ⟨sound_occupied unrelated, rfl, events, load, returned, result, hevents, hrun, hlast,
    hresult, hall, fun honly => ?_⟩
  exact hown.1 honly "unrelated" List.mem_cons_self

/-- A load of which no page fails reports the failure of a task that was there before it. And a load
whose only page fails reports nothing after the messages have been dropped, though the page fails
later and its message is in the list. -/
theorem messages_mistaken :
    (∃ pool events load, pool.Sound ∧ pool.running = true ∧
      (∀ event ∈ events, event.isOwn = true ∨ event.isForeign = true) ∧
      (initial pool).runEvents (fun _ => .ok "\x7b\x7d") (Box.zero : Box Rat) events = some load ∧
      (∀ a ∈ load.requested, ∀ message, ¬ PageFails (fun _ => .ok "\x7b\x7d") a message) ∧
      load.result? = some (.error (.taskFailures ["unrelated"]))) ∧
    (∃ pool events load, pool.Sound ∧ pool.running = true ∧
      (∀ event ∈ events, event.isOwn = true ∨ event.isForeign = true) ∧
      (initial pool).runEvents missing (Box.zero : Box Rat) events = some load ∧
      load.requested = [Address.root] ∧ PageFails missing Address.root
        "fetching hierarchy page 0-0-0-0: page missing" ∧
      load.pool.errors = ["fetching hierarchy page 0-0-0-0: page missing"] ∧
      load.result? = some (.ok ())) := by
  let blank : Source := fun _ => .ok "\x7b\x7d"
  let unrelated : Pool.Task (Workspace Rat) := ⟨[], some (.brokeOff (some "unrelated"))⟩
  let pool : Pool (Workspace Rat) := occupied unrelated
  constructor
  · let events : List (Event Rat) := [.caller, .caller, .caller, .caller, .pool (.finish 0),
      .pool (.take 1), .pool (.act 1), .pool (.act 1), .pool (.act 1), .pool (.finish 1), .caller,
      .caller, .caller, .caller]
    have hview : ((initial pool).runEvents blank Box.zero events).map
        (fun load => (load.reported?, load.requested)) =
        some (some ["unrelated"], [Address.root]) := by
      decide +kernel
    obtain ⟨load, hrun, hload⟩ := Option.map_eq_some_iff.1 hview
    obtain ⟨hreported, hrequested⟩ := Prod.mk.inj hload
    refine ⟨pool, events, load, sound_occupied unrelated, rfl, by decide, hrun,
      fun a ha message hfails => ?_, result?_of_reported? hreported⟩
    rw [hrequested, List.mem_singleton] at ha
    have hnone : pageMessage? blank (Box.zero : Box Rat) Address.root = none := by
      decide +kernel
    have hsome : pageMessage? blank (Box.zero : Box Rat) Address.root = some message :=
      pageMessage?_eq_some_iff.2 (ha ▸ hfails)
    cases hnone.symm.trans hsome
  · let events : List (Event Rat) := [.caller, .caller, .caller, .caller, .pool (.finish 0),
      .pool .clearErrors, .pool (.take 1), .pool (.act 1), .pool (.finish 1), .caller, .caller,
      .caller, .caller]
    have hview : ((initial pool).runEvents missing Box.zero events).map
        (fun load => (load.reported?, load.requested, load.pool.errors)) =
        some (some [], [Address.root], ["fetching hierarchy page 0-0-0-0: page missing"]) := by
      decide +kernel
    obtain ⟨load, hrun, hload⟩ := Option.map_eq_some_iff.1 hview
    simp only [Prod.mk.injEq] at hload
    obtain ⟨hreported, hrequested, herrors⟩ := hload
    have hmessage : pageMessage? missing (Box.zero : Box Rat) Address.root =
        some "fetching hierarchy page 0-0-0-0: page missing" := by
      decide +kernel
    exact ⟨pool, events, load, sound_occupied unrelated, rfl, by decide, hrun, hrequested,
      pageMessage?_eq_some_iff.1 hmessage, herrors, result?_of_reported? hreported⟩

end PointTiles.Load
