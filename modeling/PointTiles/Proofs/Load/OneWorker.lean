import PointTiles.Proofs.Load.Rounds
import PointTiles.Proofs.Pool.Backlog

/-! # A load with one worker is the plain loop

A single worker does the tasks in the order in which the caller submits them, and the caller submits
the pages of a round in the order of the keys. So all that a load comes to is known at every moment:
first what the worker has before it, then the rounds that the caller has still to make up.

* `ahead`: what the caller's rounds come to, once the worker has done its tasks.
* `Course`, `Course.step`: no move of the caller or the worker changes what the load comes to.
* `Single`: a running pool of one worker that does nothing.
* `one_worker_loads_in_rounds`: the load and the plain loop leave the same.
-/

namespace PointTiles
set_option autoImplicit false

-- Powers of numbers are those of the core library, whatever else is imported.
attribute [local instance (high)] instPowNat

variable {α : Type} [Coordinate α]

/-! ## The task of a page -/

/-- The workspace when the task of a page has been done. -/
def Workspace.withPage (source : Source) (root : Box α) (a : Address) (w : Workspace α) :
    Workspace α where
  hierarchy := w.hierarchy.mergeAt source root a
  discovered := w.discovered ++ keysFrom source root a
  fetched := w.fetched ++ [a]

theorem perform_pageTask (source : Source) (root : Box α) (a : Address) (w : Workspace α) :
    (pageTask source root a).perform w = some (w.withPage source root a) := by
  have hform := taskForm source root a
  generalize pageTask source root a = task at hform
  cases hform with
  | unread hpage =>
    simp only [Workspace.withPage, Hierarchy.mergeAt, keysFrom, hpage, List.append_nil]
    rfl
  | unmerged hpage hfault =>
    have hnone : keysFrom source root a = [] := by
      simp only [keysFrom, hpage, hfault]
      rfl
    simp only [Workspace.withPage, Hierarchy.mergeAt, hnone, hpage, List.append_nil]
    rfl
  | merged hpage hkeys =>
    simp only [Workspace.withPage, Hierarchy.mergeAt, keysFrom, hpage, hkeys]
    rfl

theorem performAll_pageTask (source : Source) (root : Box α) (a : Address) (w : Workspace α)
    (errors : List String) :
    Pool.performAll [pageTask source root a] (w, errors) =
      some (w.withPage source root a, errors ++ (pageMessage? source root a).toList) := by
  rw [Pool.performAll, perform_pageTask]
  rfl

namespace Load

variable {source : Source} {root : Box α}

/-! ## What is ahead -/

/-- What the rounds ahead of the caller come to, if the tasks submitted so far leave this workspace
and these messages. -/
def ahead (source : Source) (root : Box α) (limit : Nat) (load : Load α) (w : Workspace α)
    (messages : List String) : Progress α :=
  let p : Progress α := ⟨w.hierarchy, w.fetched, messages⟩
  match load.phase with
  | .beginning =>
    { p with fetched := [] }.loadRounds source root limit load.requested [Key.root root]
  | .opening keys => p.loadRounds source root limit load.requested keys
  | .submitting keys =>
    let (p, found) := p.loadPages source root keys
    p.loadRounds source root limit load.requested (w.discovered ++ found)
  | .awaiting | .gathering => p.loadRounds source root limit load.requested w.discovered
  | .reporting | .finished _ => p

/-- The worker's tasks, and after them the rounds ahead of the caller, come to this. Every round
requests a page of its own, so that the limit on the rounds is never met. -/
structure Course (source : Source) (root : Box α) (before : List String) (whole : Progress α)
    (load : Load α) : Prop where
  single : load.pool.workers.length = 1
  quiet : load.phase.isRound = false → load.pool.backlog = []
  whole : ∃ limit w messages, 2 ^ 190 ≤ limit + load.requested.length ∧
    load.pool.drained = some (w, before ++ messages) ∧
    load.ahead source root limit w messages = whole

variable {before : List String} {whole : Progress α} {load load' : Load α}

namespace Course

/-- Where the pool has no task of the load, the tasks so far have left what is there. -/
theorem whole_of_quiet (h : Course source root before whole load)
    (hphase : load.phase.isRound = false) :
    ∃ limit messages, 2 ^ 190 ≤ limit + load.requested.length ∧
      load.pool.errors = before ++ messages ∧
      load.ahead source root limit load.pool.shared messages = whole := by
  obtain ⟨limit, w, messages, hlimit, hdrained, hwhole⟩ := h.whole
  rw [Pool.drained_of_backlog (h.quiet hphase)] at hdrained
  obtain ⟨hshared, herrors⟩ := Prod.mk.inj (Option.some.inj hdrained)
  exact ⟨limit, messages, hlimit, herrors, hshared ▸ hwhole⟩

theorem of_quiet {messages : List String} {limit : Nat} (hsingle : load.pool.workers.length = 1)
    (hbacklog : load.pool.backlog = []) (hlimit : 2 ^ 190 ≤ limit + load.requested.length)
    (herrors : load.pool.errors = before ++ messages)
    (hwhole : load.ahead source root limit load.pool.shared messages = whole) :
    Course source root before whole load :=
  ⟨hsingle, fun _ => hbacklog, limit, load.pool.shared, messages, hlimit,
    by rw [Pool.drained_of_backlog hbacklog, herrors], hwhole⟩

/-- A move of the caller between two rounds that makes up none. -/
theorem turn (h : Course source root before whole load) (hround : load.phase.isRound = false)
    (hworkers : load'.pool.workers = load.pool.workers)
    (hqueue : load'.pool.queue = load.pool.queue) (herrors : load'.pool.errors = load.pool.errors)
    (hrequested : load'.requested = load.requested)
    (hahead : ∀ limit messages, load'.ahead source root limit load'.pool.shared messages =
      load.ahead source root limit load.pool.shared messages) :
    Course source root before whole load' := by
  obtain ⟨limit, messages, hlimit, hmessages, hwhole⟩ := h.whole_of_quiet hround
  refine of_quiet (hworkers ▸ h.single) ?_ (hrequested ▸ hlimit) (herrors ▸ hmessages)
    ((hahead limit messages).trans hwhole)
  rw [Pool.backlog, hworkers, hqueue]
  exact h.quiet hround

theorem move {event : Pool.Event (Workspace α)} {pool : Pool (Workspace α)}
    (h : Course source root before whole load) (hrunning : load.pool.running = true)
    (hmove : event.isMove = true) (hstep : load.pool.step event = some pool) :
    Course source root before whole { load with pool } := by
  refine ⟨?_, fun hphase => ?_, ?_⟩
  · exact (Pool.length_workers_of_step hrunning hmove hstep).trans h.single
  · exact absurd (h.quiet hphase) (Pool.backlog_ne_nil_of_step hrunning hmove hstep)
  · obtain ⟨limit, w, messages, hlimit, hdrained, hwhole⟩ := h.whole
    exact ⟨limit, w, messages, hlimit, (Pool.drained_of_step h.single hmove hstep).trans hdrained,
      hwhole⟩

/-- A new round takes one off the limit. -/
theorem openRound {keys : List (Key α)} (h : Course source root before whole load)
    (hphase : load.phase = .opening keys) (hdiscovered : load.pool.shared.discovered = [])
    (hnew : unrequested load.requested keys ≠ [])
    (hbound : load.requested.length + (unrequested load.requested keys).length ≤ 2 ^ 190) :
    Course source root before whole
      { load with
        phase := .submitting (unrequested load.requested keys)
        requested := load.requested ++ (unrequested load.requested keys).map Key.address } := by
  have hround : load.phase.isRound = false := by rw [hphase]; rfl
  obtain ⟨limit, messages, hlimit, herrors, hwhole⟩ := h.whole_of_quiet hround
  have hlength := List.length_pos_iff.2 hnew
  obtain ⟨limit, rfl⟩ : ∃ rest, limit = rest + 1 := ⟨limit - 1, by omega⟩
  have hlimit : 2 ^ 190 ≤
      limit + (load.requested ++ (unrequested load.requested keys).map Key.address).length := by
    simp only [List.length_append, List.length_map]
    omega
  refine of_quiet h.single (h.quiet hround) hlimit herrors ?_
  rw [← hwhole]
  simp only [ahead, hphase, hdiscovered, List.nil_append, Progress.loadRounds]
  split
  next hnone => exact absurd hnone hnew
  next key fresh hfresh => rw [hfresh]

theorem submit {key : Key α} {keys : List (Key α)} {pool : Pool (Workspace α)}
    (h : Course source root before whole load) (hphase : load.phase = .submitting (key :: keys))
    (hstep : load.pool.step (.submit (pageTask source root key.address)) = some pool) :
    Course source root before whole { load with pool, phase := .submitting keys } := by
  obtain ⟨limit, w, messages, hlimit, hdrained, hwhole⟩ := h.whole
  refine ⟨?_, nofun, limit, w.withPage source root key.address,
    messages ++ (pageMessage? source root key.address).toList, hlimit, ?_, ?_⟩
  · obtain ⟨-, rfl⟩ := Pool.step_submit.1 hstep
    exact h.single
  · rw [Pool.drained_submit hstep, hdrained, Option.bind_some, performAll_pageTask,
      List.append_assoc]
  · rw [← hwhole]
    simp only [ahead, hphase, Progress.loadPages, Progress.loadPage_eq, Workspace.withPage,
      List.append_assoc]

theorem caller (h : Course source root before whole load) (hsound : load.pool.Sound)
    (hrunning : load.pool.running = true)
    (hcleared : ∀ keys, load.phase = .opening keys → load.pool.shared.discovered = [])
    (hbound : load'.requested.length ≤ 2 ^ 190)
    (hstep : load.callerStep source root = some load') :
    Course source root before whole load' := by
  unfold callerStep at hstep
  split at hstep
  next hphase =>
    cases hstep
    refine h.turn (by rw [hphase]; rfl) rfl rfl rfl rfl fun limit messages => ?_
    simp only [ahead, hphase, Pool.modifyShared]
  next keys hphase =>
    cases hstep
    simp only [List.length_append, List.length_map] at hbound
    by_cases hnew : unrequested load.requested keys = []
    · refine h.turn (by rw [hphase]; rfl) rfl rfl rfl (by simp [hnew]) fun limit messages => ?_
      cases limit <;> simp only [ahead, hphase, hnew, List.isEmpty_nil, if_true, Progress.loadRounds]
    · simpa only [List.isEmpty_iff, hnew, if_false] using
        h.openRound hphase (hcleared keys hphase) hnew hbound
  next hphase =>
    cases hstep
    obtain ⟨limit, w, messages, hlimit, hdrained, hwhole⟩ := h.whole
    refine ⟨h.single, (fun hround => by cases hround), limit, w, messages, hlimit, hdrained, ?_⟩
    rw [← hwhole]
    simp only [ahead, hphase, Progress.loadPages, List.append_nil]
  next key keys hphase =>
    simp only [Pool.submit?, hrunning, if_true] at hstep
    split at hstep
    next hrefused => cases hrefused
    next => cases hstep
    next pool hsubmitted =>
      cases hstep
      exact h.submit hphase (Except.ok.inj hsubmitted)
  next hphase =>
    obtain ⟨hidle, hload⟩ := Option.ite_none_right_eq_some.1 hstep
    cases hload
    obtain ⟨limit, w, messages, hlimit, hdrained, hwhole⟩ := h.whole
    refine ⟨h.single, fun _ => hsound.backlog_eq_nil_iff.2 hidle, limit, w, messages, hlimit,
      hdrained, ?_⟩
    rw [← hwhole]
    simp only [ahead, hphase]
  next hphase =>
    cases hstep
    refine h.turn (by rw [hphase]; rfl) rfl rfl rfl rfl fun limit messages => ?_
    simp only [ahead, hphase, Pool.modifyShared]
  next hphase =>
    cases hstep
    refine h.turn (by rw [hphase]; rfl) rfl rfl rfl rfl fun limit messages => ?_
    simp only [ahead, hphase]
  next => cases hstep

theorem step {event : Event α} (h : Course source root before whole load)
    (hsound : load.pool.Sound) (hrunning : load.pool.running = true)
    (hcleared : ∀ keys, load.phase = .opening keys → load.pool.shared.discovered = [])
    (hbound : load'.requested.length ≤ 2 ^ 190) (hown : event.isOwn = true)
    (hstep : load.step source root event = some load') : Course source root before whole load' := by
  cases event with
  | caller => exact h.caller hsound hrunning hcleared hbound hstep
  | pool event =>
    obtain ⟨pool, hpool, rfl⟩ := Option.map_eq_some_iff.1 hstep
    exact h.move hrunning hown hpool

theorem run {underway : Multiset (Address × Nat)} {done : Multiset Address}
    {events : List (Event α)} (h : Course source root before whole load)
    (hsteady : Steady source root False load underway)
    (hsound : (load.docket underway done).Sound source root)
    (hown : ∀ event ∈ events, event.isOwn = true)
    (hrun : load.runEvents source root events = some load') :
    Course source root before whole load' := by
  induction events generalizing load underway done with
  | nil =>
    simp only [runEvents, Option.some.injEq] at hrun
    exact hrun ▸ h
  | cons event events ih =>
    obtain ⟨next, hnext, hrest⟩ := Option.bind_eq_some_iff.1 hrun
    obtain ⟨hfirst, hothers⟩ := List.forall_mem_cons.1 hown
    obtain ⟨underway', done', hstep, hsteady'⟩ := exists_step_of_step hsteady hfirst hnext done
    have hsound' := hsound.step hstep
    have hcourse := h.step hsteady.sound hsteady.running hsound.cleared hsound'.length_requested_le
      hfirst hnext
    exact ih hcourse hsteady' hsound' hothers hrest

/-- When the load has returned, nothing is ahead. -/
theorem eq_whole (h : Course source root before whole load) {result : Except Fault Unit}
    (hphase : load.phase = .finished result) :
    load.pool.errors = before ++ whole.messages ∧
      whole = ⟨load.pool.shared.hierarchy, load.pool.shared.fetched, whole.messages⟩ := by
  obtain ⟨limit, messages, -, herrors, hwhole⟩ := h.whole_of_quiet (by rw [hphase]; rfl)
  simp only [ahead, hphase] at hwhole
  rw [← hwhole]
  exact ⟨herrors, rfl⟩

end Course

/-! ## Loads with one worker -/

/-- The pool runs with one worker and does nothing. -/
structure Single (pool : Pool (Workspace α)) : Prop where
  sound : pool.Sound
  running : pool.running = true
  idle : pool.isIdle = true
  size : pool.size = 1

variable {pool : Pool (Workspace α)} {events : List (Event α)}

theorem Single.steady (h : Single pool) (source : Source) (root : Box α) :
    Steady source root False (initial pool) 0 :=
  ⟨h.sound, h.running, staff_of_isIdle h.sound h.idle⟩

theorem Single.course (h : Single pool) (source : Source) (root : Box α) {limit : Nat}
    (hlimit : 2 ^ 190 ≤ limit) :
    Course source root pool.errors
      (Progress.loadRounds source root limit [] [Key.root root] ⟨pool.shared.hierarchy, [], []⟩)
      (initial pool) :=
  .of_quiet ((h.sound.staffed h.running).trans h.size) (h.sound.backlog_eq_nil_iff.2 h.idle) hlimit
    (List.append_nil _).symm rfl

/-- A load with one worker leaves what the plain loop leaves, however far that is allowed to go. -/
theorem Single.outcome (h : Single pool) (hrun : IsRun source root pool events load)
    (hresult : load.result?.isSome) :
    Single load.pool ∧ ∃ messages,
      load.pool.errors = pool.errors ++ messages ∧ load.result? = some (report messages) ∧
      ∀ limit, 2 ^ 190 ≤ limit →
        Progress.loadRounds source root limit [] [Key.root root] ⟨pool.shared.hierarchy, [], []⟩ =
          ⟨load.pool.shared.hierarchy, load.pool.shared.fetched, messages⟩ := by
  have hsteady := h.steady source root
  have hstart := Docket.sound_initial source root pool
  obtain ⟨underway, done, ⟨-, htold⟩, hnow⟩ :=
    docket_of_run (motive := fun d => d.Sound source root ∧ d.Told source root pool.errors)
      (fun hd hstep => ⟨hd.1.step hstep, hd.2.step hd.1 hstep⟩) hsteady
      ⟨hstart, Docket.told_initial source root pool⟩ hrun.1 hrun.2
  obtain ⟨result, hresult⟩ := Option.isSome_iff_exists.1 hresult
  have hphase := result?_eq_some_iff.1 hresult
  have hcourse : ∀ limit, 2 ^ 190 ≤ limit → _ := fun limit hlimit =>
    (h.course source root hlimit).run hsteady hstart hrun.1 hrun.2
  have hbacklog := (hcourse _ le_rfl).quiet (by rw [hphase]; rfl)
  obtain ⟨herrors, -⟩ := (hcourse _ le_rfl).eq_whole hphase
  refine ⟨⟨hnow.sound, hnow.running, hnow.sound.backlog_eq_nil_iff.1 hbacklog, ?_⟩, _, herrors, ?_,
    fun limit hlimit => ?_⟩
  · rw [← hnow.sound.staffed hnow.running]
    exact (hcourse _ le_rfl).single
  · have hreport : result = report (load.pool.errors.drop pool.errors.length) :=
      htold.result result hphase
    rw [hresult, hreport, herrors, List.drop_left]
  · obtain ⟨herrors', hwhole⟩ := (hcourse limit hlimit).eq_whole hphase
    rw [hwhole, List.append_cancel_left (herrors'.symm.trans herrors)]

/-- On a pool with one worker that does nothing else, a load is the plain loop: the pages are fetched
and merged in its order, the messages come in that order, and of pages that write one key the one
fetched last counts. The pool is as before then, and a second load changes no count. `loadHierarchy`
gives one such load. -/
theorem one_worker_loads_in_rounds (source : Source) (root : Box α) {pool : Pool (Workspace α)}
    (hpool : Single pool) :
    let plain := loadInRounds source root pool.shared.hierarchy
    (∀ limit, 2 ^ 190 ≤ limit → Progress.loadRounds source root limit [] [Key.root root]
      ⟨pool.shared.hierarchy, [], []⟩ = plain) ∧
    (∃ failed, failed.Sublist plain.fetched ∧
      (∀ a ∈ plain.fetched, ∀ message, PageFails source a message → a ∈ failed) ∧
      List.Forall₂ (PageFails source) failed plain.messages) ∧
    (∃ events load result, IsRun source root pool events load ∧ load.result? = some result ∧
      loadHierarchy source root pool = (load.pool, result)) ∧
    ∀ events load, IsRun source root pool events load → load.result?.isSome →
      load.pool.shared.fetched = plain.fetched ∧
      load.pool.shared.hierarchy = plain.hierarchy ∧
      load.pool.errors = pool.errors ++ plain.messages ∧
      load.result? = some (report plain.messages) ∧
      (∀ key : Key α,
        (∀ before a after n, plain.fetched = before ++ a :: after → Writes source a key.address n →
          (∀ b ∈ after, ∀ m, ¬ Writes source b key.address m) →
            load.pool.shared.hierarchy.count key = n) ∧
        ((∀ a ∈ plain.fetched, ∀ n, ¬ Writes source a key.address n) →
          load.pool.shared.hierarchy.count key = pool.shared.hierarchy.count key)) ∧
      Single load.pool ∧
      ∀ events' load', IsRun source root load.pool events' load' → load'.result?.isSome →
        ∀ key : Key α, load'.pool.shared.hierarchy.count key =
          load.pool.shared.hierarchy.count key := by
  intro plain
  obtain ⟨order, horder⟩ :=
    Progress.exists_order source root (2 ^ (190 : Nat)) [] [Key.root root]
  have hplain : plain = ⟨order.foldl (Hierarchy.mergeAt source root) pool.shared.hierarchy, order,
      order.filterMap (pageMessage? source root)⟩ := horder _
  obtain ⟨events₀, hrun₀, hresult₀⟩ := (hpool.steady source root).exists_run
  refine ⟨fun limit hlimit => ?_, ?_, exists_loadHierarchy hrun₀ hresult₀, ?_⟩
  · obtain ⟨-, messages, -, -, hlimits⟩ := hpool.outcome hrun₀ hresult₀
    exact (hlimits limit hlimit).trans (hlimits _ le_rfl).symm
  · rw [hplain]
    refine ⟨_, List.filter_sublist, fun a ha message hfails => List.mem_filter.2 ⟨ha, ?_⟩,
      (Places.forall₂_filterMap (pageMessage? source root) order).imp fun _ _ =>
        pageMessage?_eq_some_iff.1⟩
    rw [pageMessage?_eq_some_iff.2 hfails, Option.isSome_some]
  · intro events load hrun hresult
    obtain ⟨hsingle, messages, herrors, hreport, hlimits⟩ := hpool.outcome hrun hresult
    have hload : plain = ⟨load.pool.shared.hierarchy, load.pool.shared.fetched, messages⟩ :=
      hlimits _ le_rfl
    have hhierarchy : load.pool.shared.hierarchy =
        order.foldl (Hierarchy.mergeAt source root) pool.shared.hierarchy :=
      congrArg Progress.hierarchy (hload.symm.trans hplain)
    have hfetched : plain.fetched = order := congrArg Progress.fetched hplain
    refine ⟨by rw [hload], by rw [hload], by rw [hload, herrors], by rw [hload, hreport],
      fun key => ⟨fun before a after n hcut hwrites hlast => ?_, fun hnone => ?_⟩, hsingle,
      fun events' load' hrun' hresult' key => ?_⟩
    · rw [hhierarchy, ← hfetched, hcut]
      exact Hierarchy.count_foldl_of_last hwrites hlast
    · rw [hhierarchy]
      exact Hierarchy.count_foldl_of_none (hfetched ▸ hnone)
    · obtain ⟨-, messages', -, -, hlimits'⟩ := hsingle.outcome hrun' hresult'
      have hagain : load'.pool.shared.hierarchy =
          order.foldl (Hierarchy.mergeAt source root) load.pool.shared.hierarchy :=
        congrArg Progress.hierarchy ((hlimits' _ le_rfl).symm.trans (horder _))
      rw [hagain, hhierarchy]
      exact Hierarchy.count_foldl_twice order _ key

/-- Three pages count the points of the root, each in its own way. The second one breaks off, and the
third one points back to it. -/
def conflicting : Source := fun a =>
  if a = Address.root then .ok "\x7b\"0-0-0-0\": 5, \"1-0-0-0\": -1, \"1-1-0-0\": -1\x7d"
  else if a.cell.x = 0 then .ok "\x7b\"0-0-0-0\": 7, \"1-2-0-0\": 3\x7d"
  else .ok "\x7b\"0-0-0-0\": 9, \"1-0-0-0\": -1\x7d"

/-- The page fetched last counts, also after a second load. -/
theorem one_worker_loads_in_rounds_conflicting :
    let pool : Pool (Workspace Rat) := Pool.create 1 1 (.ofHierarchy .empty)
    let own := ["Invalid EPT key: 1-2-0-0 lies outside the depth 1 grid"]
    Single pool ∧ ∃ events load, IsRun conflicting Box.zero pool events load ∧
      load.result? = some (.error (.taskFailures own)) ∧
      load.pool.shared.fetched = [Address.root, ⟨1, ⟨0, 0, 0⟩⟩, ⟨1, ⟨1, 0, 0⟩⟩] ∧
      load.pool.shared.hierarchy = (loadInRounds conflicting Box.zero .empty).hierarchy ∧
      load.pool.shared.hierarchy.count (Key.root Box.zero) = 9 ∧
      ∃ events' load', IsRun conflicting Box.zero load.pool events' load' ∧ load'.result?.isSome ∧
        load'.pool.shared.hierarchy.count (Key.root Box.zero) = 9 := by
  intro pool own
  let events : List (Event Rat) := [.caller, .caller, .caller, .pool (.take 0), .caller,
    .pool (.act 0), .pool (.act 0), .pool (.act 0), .pool (.finish 0), .caller, .caller, .caller,
    .caller, .pool (.take 0), .caller, .caller, .pool (.act 0), .pool (.act 0), .pool (.finish 0),
    .pool (.take 0), .pool (.act 0), .pool (.act 0), .pool (.act 0), .pool (.finish 0),
    .caller, .caller, .caller, .caller]
  have hsound : pool.Sound := Pool.sound_of_run (show Pool.run [.start]
    (Pool.stopped 1 1 (.ofHierarchy .empty)) = some pool from rfl)
  have hpool : Single pool := ⟨hsound, rfl, rfl, rfl⟩
  have hview : ((initial pool).runEvents conflicting Box.zero events).map
      (fun load => (load.result?.isSome, load.pool.errors, load.pool.shared.fetched,
        load.pool.shared.hierarchy.count (Key.root Box.zero))) =
      some (true, own, [Address.root, ⟨1, ⟨0, 0, 0⟩⟩, ⟨1, ⟨1, 0, 0⟩⟩], 9) := by
    decide +kernel
  obtain ⟨load, hrun, hload⟩ := Option.map_eq_some_iff.1 hview
  simp only [Prod.mk.injEq] at hload
  obtain ⟨hresult, herrors, hfetched, hcount⟩ := hload
  have hload : IsRun conflicting Box.zero pool events load := ⟨by decide, hrun⟩
  obtain ⟨-, -, -, hruns⟩ := one_worker_loads_in_rounds conflicting Box.zero hpool
  obtain ⟨-, hhierarchy, hmessages, hreport, -, hsingle, hsecond⟩ := hruns events load hload hresult
  obtain ⟨events', hrun', hresult'⟩ := (hsingle.steady conflicting Box.zero).exists_run
  refine ⟨hpool, events, load, hload, ?_, hfetched, hhierarchy, hcount, events', _, hrun',
    hresult', ?_⟩
  · have hown : own = (loadInRounds conflicting Box.zero pool.shared.hierarchy).messages :=
      herrors.symm.trans hmessages
    rw [hreport, ← hown]
    rfl
  · rw [hsecond events' _ hrun' hresult', hcount]

end Load

end PointTiles
