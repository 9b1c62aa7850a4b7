import PointTiles.Load.Roster
import PointTiles.Proofs.Load.Messages

/-! # Whose the tasks in a pool are

* `Sent`, `Serves`: a task in the queue, or that of a worker, is what the roster says.
* `Roster.Right`: the roster agrees with the load. One lemma for each event says that it stays so.
* `Roster.Right.run`: it does after a run in which the caller, the workers and others move.
* `Roster.kept_of_watch`, `Roster.dropped_of_watch`: which messages are still there.
-/

namespace PointTiles.Load
set_option autoImplicit false

variable {α : Type} [Coordinate α]

theorem exists_watch {source : Source} {root : Box α} {events : List (Event α)}
    {load load' : Load α} (r : Roster) (hrun : load.runEvents source root events = some load') :
    ∃ r', watch source root events load r = some (load', r') := by
  induction events generalizing load r with
  | nil =>
    simp only [runEvents, Option.some.injEq] at hrun
    exact ⟨r, by rw [watch, hrun]⟩
  | cons event events ih =>
    obtain ⟨next, hnext, hrest⟩ := Option.bind_eq_some_iff.1 hrun
    obtain ⟨r', hwatch⟩ := ih (r.record event load) hrest
    exact ⟨r', by rw [watch, hnext]; exact hwatch⟩

/-! ## Whose a task is -/

/-- A task in the queue and whose it is. -/
inductive Sent (source : Source) (root : Box α) (guest : Pool.Task (Workspace α) → Prop) :
    Pool.Task (Workspace α) → Option Address → Prop where
  | page (a : Address) : Sent source root guest (pageTask source root a) (some a)
  | guest {task : Pool.Task (Workspace α)} (hguest : guest task) : Sent source root guest task none

/-- A worker and whose task it does. -/
inductive Serves (source : Source) (root : Box α) (guest : Pool.Task (Workspace α) → Prop) :
    Pool.Worker (Workspace α) → Option Address → Prop where
  | idle : Serves source root guest .idle none
  | busy {task : Pool.Task (Workspace α)} {mark : Option Address}
      (hsent : Sent source root guest task mark)
      (rest : List (Workspace α → Option (Workspace α))) :
      Serves source root guest (.busy task rest) mark

/-- The roster agrees with the load, which began with this number of messages in the pool. -/
structure Roster.Right (source : Source) (root : Box α) (guest : Pool.Task (Workspace α) → Prop)
    (before : Nat) (load : Load α) (r : Roster) : Prop where
  sound : load.pool.Sound
  running : load.pool.running = true
  waiting : List.Forall₂ (Sent source root guest) load.pool.queue r.waiting
  working : List.Forall₂ (Serves source root guest) load.pool.workers r.working
  account : (load.requested : Multiset Address) =
    (r.ended.filterMap Prod.fst : List Address) + (marks r.waiting + marks r.working) +
      (load.phase.toSubmit.map Key.address : List Address)
  nodup : load.requested.Nodup
  quiet : load.phase.isRound = false → marks r.waiting + marks r.working = 0
  own : ∀ a message?, (some a, message?) ∈ r.ended → message? = pageMessage? source root a
  others : ∀ message, (none, some message) ∈ r.ended →
    ∃ task, guest task ∧ task.trouble.map Trouble.message = some message
  errors : load.pool.errors = r.earlier ++ Roster.messages r.recent
  offset : load.errorsBefore = before
  begun : load.phase ≠ .beginning

namespace Roster

theorem marks_move (mark : Option Address) (waiting before after : List (Option Address)) :
    marks (mark :: waiting) + marks (before ++ none :: after) =
      marks waiting + marks (before ++ mark :: after) := by
  cases mark <;> simp

/-- A task that ends goes from the marks to the list. -/
theorem account_end (mark : Option Address) (message? : Option String)
    (ended : List (Option Address × Option String)) (before after : List (Option Address)) :
    (((ended ++ [(mark, message?)]).filterMap Prod.fst : List Address) : Multiset Address) +
        marks (before ++ none :: after) =
      (ended.filterMap Prod.fst : List Address) + marks (before ++ mark :: after) := by
  rw [List.filterMap_append, ← Multiset.coe_add]
  cases mark with
  | none => simp
  | some a =>
    simp only [marks_append, marks_none, marks_some, Multiset.add_cons, ← Multiset.cons_add]
    rw [Multiset.add_assoc]
    rfl

/-- Where nothing is marked, nothing is after a mark is taken away. -/
theorem quiet_end {mark : Option Address} {waiting before after : List (Option Address)}
    (h : marks waiting + marks (before ++ mark :: after) = 0) :
    marks waiting + marks (before ++ none :: after) = 0 := by
  cases mark with
  | none => exact h
  | some a => simp at h

@[simp] theorem messages_append (ended ended' : List (Option Address × Option String)) :
    messages (ended ++ ended') = messages ended ++ messages ended' :=
  List.filterMap_append ..

namespace Right

variable {source : Source} {root : Box α} {guest : Pool.Task (Workspace α) → Prop}
  {before : Nat} {load load' : Load α} {r : Roster} {pool : Pool (Workspace α)} {w : Nat}

theorem take (h : Right source root guest before load r)
    (hstep : load.pool.step (.take w) = some pool) :
    Right source root guest before { load with pool } (r.record (.pool (.take w)) load) := by
  obtain ⟨waiting, working, ended, recent, earlier⟩ := r
  have hsound := h.sound.step hstep
  obtain ⟨-, hrunning, hwaiting, hworking, haccount, hnodup, hquiet, hown, hothers, herrors,
    hoffset, hbegun⟩ := h
  obtain ⟨task, queue, hidle, hqueue, rfl⟩ := Pool.step_take.1 hstep
  rw [hqueue] at hwaiting
  obtain ⟨left, right, mark, left', right', hcut, rfl, rfl, hlen, hleft, hserves, hright⟩ :=
    Places.forall₂_split hworking hidle
  cases hserves
  cases hwaiting with
  | @cons _ mark _ waiting hsent hwaiting =>
    have hset : (left' ++ none :: right').set left.length mark = left' ++ mark :: right' := by
      rw [← hlen, Places.set_split]
    have hserving : List.Forall₂ (Serves source root guest)
        (load.pool.workers.set left.length (.busy task task.actions))
        (left' ++ mark :: right') := by
      rw [hcut, Places.set_split]
      exact List.rel_append hleft (.cons (.busy hsent _) hright)
    rw [marks_move] at haccount hquiet
    rw [← hset] at hserving haccount hquiet
    exact ⟨hsound, hrunning, hwaiting, hserving, haccount, hnodup, hquiet, hown, hothers, herrors,
      hoffset, hbegun⟩

theorem act (h : Right source root guest before load r)
    (hstep : load.pool.step (.act w) = some pool) :
    Right source root guest before { load with pool } (r.record (.pool (.act w)) load) := by
  have hsound := h.sound.step hstep
  obtain ⟨task, action, rest, shared, hbusy, -, rfl⟩ := Pool.step_act.1 hstep
  obtain ⟨left, right, hcut, rfl⟩ := Places.exists_split hbusy
  have hworking := h.working
  rw [hcut] at hworking
  refine { h with sound := hsound, working := ?_ }
  show List.Forall₂ _ (load.pool.workers.set left.length (.busy task rest)) r.working
  rw [hcut, Places.set_split]
  refine Places.forall₂_keep hworking fun mark hserves => ?_
  cases hserves with
  | busy hsent => exact .busy hsent rest

theorem finish (h : Right source root guest before load r)
    (hstep : load.pool.step (.finish w) = some pool) :
    Right source root guest before { load with pool } (r.record (.pool (.finish w)) load) := by
  obtain ⟨waiting, working, ended, recent, earlier⟩ := r
  have hsound := h.sound.step hstep
  obtain ⟨-, hrunning, hwaiting, hworking, haccount, hnodup, hquiet, hown, hothers, herrors,
    hoffset, hbegun⟩ := h
  obtain ⟨task, hbusy, rfl⟩ := Pool.step_finish.1 hstep
  obtain ⟨left, right, mark, left', right', hcut, rfl, rfl, hlen, hleft, hserves, hright⟩ :=
    Places.forall₂_split hworking hbusy
  cases hserves with
  | busy hsent =>
    have hrecord : record (.pool (.finish left.length)) load
        ⟨waiting, left' ++ mark :: right', ended, recent, earlier⟩ =
        ⟨waiting, left' ++ none :: right', ended ++ [(mark, task.trouble.map Trouble.message)],
          recent ++ [(mark, task.trouble.map Trouble.message)], earlier⟩ := by
      have hmark : (left' ++ mark :: right')[left.length]? = some mark := by
        rw [← hlen, Places.getElem?_split]
      have hset : (left' ++ mark :: right').set left.length none = left' ++ none :: right' := by
        rw [← hlen, Places.set_split]
      simp only [record, hbusy, hmark, hset, Option.join_some]
    rw [hrecord]
    refine ⟨hsound, hrunning, hwaiting, ?_, ?_, hnodup, fun hround => ?_, fun a message? hmem => ?_,
      fun message hmem => ?_, ?_, hoffset, hbegun⟩
    · show List.Forall₂ _ (load.pool.workers.set left.length .idle) _
      rw [hcut, Places.set_split]
      exact List.rel_append hleft (.cons .idle hright)
    · rw [haccount, add_left_comm, ← account_end mark (task.trouble.map Trouble.message),
        add_left_comm]
    · exact quiet_end (hquiet hround)
    · rcases List.mem_append.1 hmem with hold | hnew
      · exact hown a message? hold
      · cases List.mem_singleton.1 hnew
        cases hsent
        rfl
    · rcases List.mem_append.1 hmem with hold | hnew
      · exact hothers message hold
      · obtain ⟨rfl, hmessage⟩ := Prod.mk.inj (List.mem_singleton.1 hnew)
        cases hsent with
        | guest hguest => exact ⟨task, hguest, hmessage.symm⟩
    · show load.pool.errors ++ (task.trouble.map Trouble.message).toList = _
      rw [herrors, messages_append, List.append_assoc]
      cases task.trouble <;> rfl

/-- Another user submits a task. -/
theorem submit {task : Pool.Task (Workspace α)} (h : Right source root guest before load r)
    (hguest : guest task) (hstep : load.pool.step (.submit task) = some pool) :
    Right source root guest before { load with pool } (r.record (.pool (.submit task)) load) := by
  have hsound := h.sound.step hstep
  obtain ⟨-, rfl⟩ := Pool.step_submit.1 hstep
  have hmarks : marks (r.waiting ++ [none]) = marks r.waiting := by simp
  have haccount := h.account
  have hquiet := h.quiet
  rw [← hmarks] at haccount hquiet
  exact { h with
    sound := hsound
    waiting := List.rel_append h.waiting (.cons (.guest hguest) .nil)
    account := haccount
    quiet := hquiet }

/-- Another user drops the messages. -/
theorem clearErrors (h : Right source root guest before load r)
    (hstep : load.pool.step .clearErrors = some pool) :
    Right source root guest before { load with pool } (r.record (.pool .clearErrors) load) := by
  have hsound := h.sound.step hstep
  obtain rfl := Pool.step_clearErrors.1 hstep
  exact { h with sound := hsound, errors := rfl }

omit [Coordinate α] in
theorem toSubmit_round (fresh : List (Key α)) :
    (if fresh.isEmpty then Phase.reporting else .submitting fresh).toSubmit = fresh := by
  cases fresh <;> rfl

omit [Coordinate α] in
theorem round_ne_beginning (fresh : List (Key α)) :
    (if fresh.isEmpty then Phase.reporting else .submitting fresh) ≠ .beginning := by
  cases fresh <;> exact nofun

/-- A round is made up. -/
theorem openRound {keys : List (Key α)} (h : Right source root guest before load r)
    (hphase : load.phase = .opening keys) :
    Right source root guest before
      { load with
        requested := load.requested ++ (unrequested load.requested keys).map Key.address
        phase :=
          if (unrequested load.requested keys).isEmpty then .reporting
          else .submitting (unrequested load.requested keys) } r := by
  have haccount := h.account
  have hquiet := h.quiet (by rw [hphase]; rfl)
  rw [hphase] at haccount
  refine { h with
    account := ?_, nodup := ?_, quiet := fun _ => hquiet, begun := round_ne_beginning _ }
  · rw [toSubmit_round, ← Multiset.coe_add, haccount]
    simp only [Phase.toSubmit, List.map_nil, Multiset.coe_nil, Multiset.add_zero]
  · refine List.nodup_append.2 ⟨h.nodup, nodup_unrequested load.requested keys, ?_⟩
    rintro a hold b hnew rfl
    obtain ⟨key, hkey, rfl⟩ := List.mem_map.1 hnew
    exact (mem_of_mem_unrequested hkey).2 hold

/-- The caller submits the task of a page. -/
theorem submitPage {key : Key α} {keys : List (Key α)} (h : Right source root guest before load r)
    (hphase : load.phase = .submitting (key :: keys))
    (hstep : load.pool.step (.submit (pageTask source root key.address)) = some pool) :
    Right source root guest before { load with pool, phase := .submitting keys }
      { r with waiting := r.waiting ++ [some key.address] } := by
  have hsound := h.sound.step hstep
  have haccount := h.account
  obtain ⟨-, rfl⟩ := Pool.step_submit.1 hstep
  refine { h with
    sound := hsound
    waiting := List.rel_append h.waiting (.cons (.page key.address) .nil)
    account := ?_, quiet := nofun, begun := nofun }
  rw [haccount, hphase]
  simp only [Phase.toSubmit, List.map_cons, ← Multiset.cons_coe, marks_append, marks_some,
    marks_nil, Multiset.add_cons, Multiset.cons_add, Multiset.add_zero]

/-- The caller goes on to another phase and leaves the pages as they are. -/
theorem turn {phase : Phase α} (h : Right source root guest before load r)
    (hsubmit : phase.toSubmit = load.phase.toSubmit)
    (hquiet : phase.isRound = false → marks r.waiting + marks r.working = 0)
    (hbegun : phase ≠ .beginning) : Right source root guest before { load with phase } r := by
  have haccount := h.account
  rw [← hsubmit] at haccount
  exact { h with account := haccount, quiet := hquiet, begun := hbegun }

/-- The caller finds the pool idle. -/
theorem await (h : Right source root guest before load r) (hphase : load.phase = .awaiting)
    (hidle : load.pool.isIdle = true) :
    Right source root guest before { load with phase := .gathering } r := by
  obtain ⟨hqueue, hworkers⟩ := h.sound.isIdle_iff.1 hidle
  have hwaiting := h.waiting
  rw [hqueue, List.forall₂_nil_left_iff] at hwaiting
  have hworking := marks_of_idle h.working (fun mark hmark => by cases hmark; rfl) hworkers
  refine h.turn (by rw [hphase]; rfl) (fun _ => ?_) nofun
  rw [hwaiting, hworking]
  rfl

/-- The caller takes the keys found. -/
theorem gather (h : Right source root guest before load r) (hphase : load.phase = .gathering) :
    Right source root guest before
      { load with
        pool := load.pool.modifyShared fun w => { w with discovered := [] }
        phase := .opening load.pool.shared.discovered } r := by
  have hquiet := h.quiet (by rw [hphase]; rfl)
  have hturned : Right source root guest before
      { load with phase := .opening load.pool.shared.discovered } r :=
    h.turn (by rw [hphase]; rfl) (fun _ => hquiet) nofun
  have hcleared := h.sound.modifyShared fun w => { w with discovered := [] }
  exact { hturned with sound := hcleared }

theorem caller (h : Right source root guest before load r)
    (hstep : load.callerStep source root = some load') :
    Right source root guest before load' (r.record .caller load) := by
  unfold callerStep at hstep
  split at hstep
  next hphase => exact absurd hphase h.begun
  next keys hphase =>
    cases hstep
    rw [record, hphase]
    exact h.openRound hphase
  next hphase =>
    cases hstep
    rw [record, hphase]
    exact h.turn (by rw [hphase]; rfl) (fun hround => by cases hround) (fun hbegin => by cases hbegin)
  next key keys hphase =>
    rw [record, hphase, h.running]
    split at hstep
    next hrefused => simp [Pool.submit?, h.running] at hrefused
    next => cases hstep
    next pool hsubmitted =>
      cases hstep
      exact h.submitPage hphase (Pool.step_of_submit? hsubmitted)
  next hphase =>
    obtain ⟨hidle, hload⟩ := Option.ite_none_right_eq_some.1 hstep
    cases hload
    rw [record, hphase]
    exact h.await hphase hidle
  next hphase =>
    cases hstep
    rw [record, hphase]
    exact h.gather hphase
  next hphase =>
    cases hstep
    have hquiet := h.quiet (by rw [hphase]; rfl)
    rw [record, hphase]
    exact h.turn (by rw [hphase]; rfl) (fun _ => hquiet) (fun hbegin => by cases hbegin)
  next => cases hstep

theorem step {event : Event α} (h : Right source root guest before load r)
    (hevent : event.isOwn = true ∨ event.isForeign = true)
    (hguest : ∀ task, event = .pool (.submit task) → guest task)
    (hstep : load.step source root event = some load') :
    Right source root guest before load' (r.record event load) := by
  cases event with
  | caller => exact h.caller hstep
  | pool event =>
    obtain ⟨pool, hpool, rfl⟩ := Option.map_eq_some_iff.1 hstep
    cases event with
    | submit task => exact h.submit (hguest task rfl) hpool
    | take w => exact h.take hpool
    | act w => exact h.act hpool
    | finish w => exact h.finish hpool
    | leave w =>
      obtain ⟨-, hstopped, -⟩ := Pool.step_leave.1 hpool
      exact absurd (h.running.symm.trans hstopped) (by decide)
    | clearErrors => exact h.clearErrors hpool
    | halt | start | resize => simp [Event.isOwn, Event.isForeign, Pool.Event.isMove] at hevent

theorem run {events : List (Event α)} {r' : Roster} (h : Right source root guest before load r)
    (hevents : ∀ event ∈ events, event.isOwn = true ∨ event.isForeign = true)
    (hguest : ∀ task, .pool (.submit task) ∈ events → guest task)
    (hwatch : watch source root events load r = some (load', r')) :
    Right source root guest before load' r' := by
  induction events generalizing load r with
  | nil =>
    cases hwatch
    exact h
  | cons event events ih =>
    obtain ⟨next, hnext, hrest⟩ := Option.bind_eq_some_iff.1 hwatch
    obtain ⟨hfirst, hothers⟩ := List.forall_mem_cons.1 hevents
    refine ih (h.step hfirst (fun task htask => ?_) hnext) hothers (fun task htask => ?_) hrest
    · exact hguest task (htask ▸ List.mem_cons_self)
    · exact hguest task (List.mem_cons_of_mem _ htask)

end Right

/-! ## Messages that were dropped -/

variable {source : Source} {root : Box α} {events : List (Event α)} {event : Event α}
  {load load' : Load α} {r r' : Roster}

omit [Coordinate α] in
theorem record_kept (load : Load α) (hevent : event ≠ .pool .clearErrors)
    (h : r.recent = r.ended) :
    (r.record event load).recent = (r.record event load).ended ∧
      (r.record event load).earlier = r.earlier := by
  unfold record
  split
  · split <;> exact ⟨h, rfl⟩
  · exact ⟨h, rfl⟩
  · exact ⟨h, rfl⟩
  · split
    · exact ⟨congrArg (· ++ _) h, rfl⟩
    · exact ⟨h, rfl⟩
  · exact absurd rfl hevent
  · exact ⟨h, rfl⟩

omit [Coordinate α] in
theorem record_dropped (h : r.earlier = []) : (r.record event load).earlier = [] := by
  unfold record
  split
  · split <;> exact h
  · exact h
  · exact h
  · split <;> exact h
  · rfl
  · exact h

theorem kept_of_watch (hwatch : watch source root events load r = some (load', r'))
    (hevents : .pool .clearErrors ∉ events) (h : r.recent = r.ended) :
    r'.recent = r'.ended ∧ r'.earlier = r.earlier := by
  induction events generalizing load r with
  | nil =>
    cases hwatch
    exact ⟨h, rfl⟩
  | cons event events ih =>
    obtain ⟨next, hnext, hrest⟩ := Option.bind_eq_some_iff.1 hwatch
    obtain ⟨hfirst, hothers⟩ := not_or.1 (mt List.mem_cons.2 hevents)
    obtain ⟨hrecent, hearlier⟩ := record_kept load (Ne.symm hfirst) h
    obtain ⟨hrecent', hearlier'⟩ := ih hrest hothers hrecent
    exact ⟨hrecent', hearlier'.trans hearlier⟩

theorem dropped_of_watch (hwatch : watch source root events load r = some (load', r'))
    (h : r.earlier = [] ∨ .pool .clearErrors ∈ events) : r'.earlier = [] := by
  induction events generalizing load r with
  | nil =>
    cases hwatch
    simpa using h
  | cons event events ih =>
    obtain ⟨next, hnext, hrest⟩ := Option.bind_eq_some_iff.1 hwatch
    refine ih hrest ?_
    rcases h with hempty | hdropped
    · exact .inl (record_dropped hempty)
    · rcases List.mem_cons.1 hdropped with rfl | hlater
      · exact .inl rfl
      · exact .inr hlater

/-! ## Messages of the load's own pages -/

theorem messages_own_eq_iff (ended : List (Option Address × Option String)) :
    messages (own ended) = messages ended ↔ ∀ message, (none, some message) ∉ ended := by
  induction ended with
  | nil => simp [own]
  | cons entry ended ih =>
    obtain ⟨_ | a, _ | message⟩ := entry
    · simpa [own, messages] using ih
    · -- Somebody else's message is left out, and there are not enough without it.
      have hsub : (messages (own ended)).Sublist (messages ended) :=
        List.filter_sublist.filterMap Prod.snd
      refine iff_of_false (fun heq => ?_) (fun hnone => hnone message List.mem_cons_self)
      have hlength := congrArg List.length heq
      simp only [own, messages, List.filter_cons, Option.isSome_none, Bool.false_eq_true, if_false,
        List.filterMap_cons, List.length_cons] at hlength
      have := hsub.length_le
      simp only [own, messages] at this
      omega
    · simpa [own, messages] using ih
    · simpa [own, messages] using ih

end Roster

end PointTiles.Load
