import PointTiles.Proofs.Pool.Lifecycle

/-! # The messages of a pool

* `Pool.Ledger.returning`: the tickets that come back with an event.
* `Pool.Ledger.messages`, `Reported.errors_eq`: the messages of a pool are those of the tickets that
  have come back since the messages were last dropped.
* `Pool.Alone`, `Alone.step`: the only worker of a pool has the task that was taken last.
* `Owned.Move.event`, `pool_of_step`: every move is an event of the pool or leaves it as it is.
* `Owned.Precise`, `Precise.step`: the log of an owned pool tells its messages.
* `errors_exact`: no message is lost, made up or told twice, whatever calls come in between.
-/

namespace PointTiles
set_option autoImplicit false

variable {σ : Type}

/-! ## Tickets that come back -/

namespace Pool

variable {p q : Pool σ} {l : Ledger σ} {event : Event σ} {reported : List Nat}

namespace Ledger

/-- The tickets that come back with an event. -/
def returning (event : Event σ) (l : Ledger σ) : List Nat :=
  match event with
  | .finish w => (l.held[w]?.join).toList
  | _ => []

theorem returned_record (event : Event σ) :
    (l.record event p).returned = l.returned ++ l.returning event := by
  cases event with
  | finish w => rfl
  | _ => exact (List.append_nil _).symm

theorem reportedAfter_of_ne (h : event ≠ .clearErrors) (reported : List Nat) :
    l.reportedAfter event reported = reported ++ l.returning event := by
  cases event with
  | finish w => rfl
  | clearErrors => exact absurd rfl h
  | _ => exact (List.append_nil _).symm

/-- The messages of the tasks with these tickets. -/
def messages (l : Ledger σ) (tickets : List Nat) : List String :=
  tickets.filterMap fun ticket =>
    l.accepted[ticket]?.bind fun task => task.trouble.map Trouble.message

theorem messages_append (tickets more : List Nat) :
    l.messages (tickets ++ more) = l.messages tickets ++ l.messages more :=
  List.filterMap_append

/-- A ticket stands for the same task when more have been accepted. -/
theorem messages_of_prefix {l' : Ledger σ} {tickets : List Nat} (h : l.accepted <+: l'.accepted)
    (htickets : ∀ ticket ∈ tickets, ticket < l.accepted.length) :
    l'.messages tickets = l.messages tickets := by
  obtain ⟨more, hmore⟩ := h
  refine List.filterMap_congr (fun ticket hmem => ?_)
  rw [← hmore, List.getElem?_append_left (htickets ticket hmem)]

end Ledger

theorem Accounts.nodup (hl : Accounts p l) : (l.returned ++ l.held.filterMap id).Nodup :=
  hl.once.nodup_iff.2 List.nodup_range

theorem Accounts.lt_of_returned {ticket : Nat} (hl : Accounts p l) (hmem : ticket ∈ l.returned) :
    ticket < l.taken.length :=
  List.mem_range.1 (hl.once.mem_iff.1 (List.mem_append_left _ hmem))

theorem Accounts.length_taken_le (hl : Accounts p l) : l.taken.length ≤ l.accepted.length := by
  rw [hl.fifo, List.length_append]
  exact Nat.le_add_right _ _

/-- The task that ends is the one whose ticket the worker holds, and it has not ended before. -/
theorem Accounts.returning_finish {w : Nat} {task : Task σ} (hl : Accounts p l)
    (hbusy : p.workers[w]? = some (.busy task [])) :
    ∃ ticket, some ticket ∈ l.held ∧ l.returning (.finish w) = [ticket] ∧
      l.accepted[ticket]? = some task ∧ ticket ∉ l.returned := by
  obtain ⟨before, after, held, before', after', -, hheld, rfl, hlen, -, hholds, -⟩ :=
    Places.forall₂_split hl.crew hbusy
  cases hholds with
  | @busy _ _ ticket htask hrest =>
    have hmem : some ticket ∈ l.held := by
      rw [hheld]
      exact List.mem_append_right _ List.mem_cons_self
    refine ⟨ticket, hmem, ?_, ?_, fun hreturned => ?_⟩
    · simp [Ledger.returning, hheld, ← hlen]
    · rw [hl.fifo, List.getElem?_append_left (List.getElem?_eq_some_iff.1 htask).1]
      exact htask
    · obtain ⟨-, -, hapart⟩ := List.nodup_append.1 hl.nodup
      exact hapart ticket hreturned ticket (List.mem_filterMap.2 ⟨some ticket, hmem, rfl⟩) rfl

theorem Reported.errors_eq (hl : Accounts p l) (hr : Reported p l reported) :
    p.errors = l.messages reported := by
  have haccepted : reported.map (l.accepted[·]?) = reported.map (l.taken[·]?) := by
    refine List.map_congr_left (fun ticket hmem => ?_)
    obtain ⟨task, -, htask⟩ := hr.exists_task hmem
    rw [hl.fifo, List.getElem?_append_left (List.getElem?_eq_some_iff.1 htask).1]
  let message (task? : Option (Task σ)) : Option String :=
    task?.bind fun task => task.trouble.map Trouble.message
  calc
    p.errors = messagesOf l.endedSinceClear := hr.errors
    _ = (l.endedSinceClear.map some).filterMap message := by
      rw [List.filterMap_map]
      rfl
    _ = (reported.map (l.accepted[·]?)).filterMap message := by rw [haccepted, hr.tasks]
    _ = l.messages reported := by
      rw [List.filterMap_map]
      rfl

/-! ## One worker -/

/-- A pool with one worker has nothing under way but the task that was taken last. -/
structure Alone (p : Pool σ) (l : Ledger σ) : Prop where
  staffed : p.workers.length ≤ p.size
  latest : p.size = 1 → ∀ ticket, some ticket ∈ l.held → ticket + 1 = l.taken.length

theorem Alone.step (hl : Accounts p l) (ha : Alone p l) (hstep : p.step event = some q) :
    Alone q (l.record event p) := by
  obtain ⟨hstaffed, hlatest⟩ := ha
  cases event with
  | submit task =>
    obtain ⟨-, rfl⟩ := step_submit.1 hstep
    exact ⟨hstaffed, hlatest⟩
  | take w =>
    obtain ⟨task, queue, hidle, hqueue, rfl⟩ := step_take.1 hstep
    obtain ⟨before, after, held, before', after', hworkers, hheld, rfl, hlen, hbefore, hholds,
      hafter⟩ := Places.forall₂_split hl.crew hidle
    refine ⟨by simpa using hstaffed, fun hone ticket hmem => ?_⟩
    -- The worker that takes the task is the only one.
    have hone' : before.length + (after.length + 1) ≤ 1 := by
      rw [hworkers, List.length_append, List.length_cons] at hstaffed
      exact hone ▸ hstaffed
    have hnobody : before' = [] ∧ after' = [] := by
      rw [← List.length_eq_zero_iff, ← List.length_eq_zero_iff, ← hbefore.length_eq,
        ← hafter.length_eq]
      omega
    have hnow : (l.record (.take before.length) p).held = [some l.taken.length] := by
      simp only [Ledger.record, hheld, ← hlen, Places.set_split, hnobody]
      rfl
    rw [hnow, List.mem_singleton, Option.some.injEq] at hmem
    simp [hmem, Ledger.record, History.record, hqueue]
  | act w =>
    obtain ⟨task, action, rest, shared, -, -, rfl⟩ := step_act.1 hstep
    exact ⟨by simpa using hstaffed, hlatest⟩
  | finish w =>
    obtain ⟨task, hbusy, rfl⟩ := step_finish.1 hstep
    refine ⟨by simpa [conclude] using hstaffed, fun hone ticket hmem => ?_⟩
    have hsame : (l.record (.finish w) p).taken = l.taken := by
      simp [Ledger.record, History.record, hbusy]
    rw [hsame]
    have hmem : some ticket ∈ l.held.set w none := hmem
    rcases List.mem_or_eq_of_mem_set hmem with hheld | hnone
    · exact hlatest hone ticket hheld
    · cases hnone
  | leave w =>
    obtain ⟨-, -, -, rfl⟩ := step_leave.1 hstep
    exact ⟨Nat.le_trans (List.length_eraseIdx_le _ _) hstaffed,
      fun hone ticket hmem => hlatest hone ticket (List.mem_of_mem_eraseIdx hmem)⟩
  | clearErrors =>
    obtain rfl := step_clearErrors.1 hstep
    exact ⟨hstaffed, hlatest⟩
  | halt =>
    obtain ⟨-, rfl⟩ := step_halt.1 hstep
    exact ⟨hstaffed, hlatest⟩
  | start =>
    obtain ⟨-, rfl⟩ := step_start.1 hstep
    refine ⟨Nat.le_of_eq List.length_replicate, fun _ ticket hmem => ?_⟩
    cases List.eq_of_mem_replicate hmem
  | resize size =>
    obtain ⟨⟨-, hworkers⟩, rfl⟩ := step_resize.1 hstep
    have hcrew := hl.crew
    rw [hworkers, List.forall₂_nil_left_iff] at hcrew
    refine ⟨by simp [hworkers], fun _ ticket hmem => ?_⟩
    have hmem : some ticket ∈ l.held := hmem
    rw [hcrew] at hmem
    cases hmem

/-- With one worker, the ticket that comes back is the last one so far. -/
theorem Alone.lt_of_returned {ticket other : Nat} (hl : Accounts p l) (ha : Alone p l)
    (hone : p.size = 1) (hheld : some ticket ∈ l.held) (hfresh : ticket ∉ l.returned)
    (hother : other ∈ l.returned) : other < ticket := by
  have hlast := ha.latest hone ticket hheld
  have hlt := hl.lt_of_returned hother
  have hne : other ≠ ticket := fun heq => hfresh (heq ▸ hother)
  omega

end Pool

/-! ## Events of an owned pool -/

namespace Owned

variable {o p : Owned σ} {move : Move σ} {l l' : Monitor.Log σ}

/-- The event of the pool that a move is, if it is one. -/
def Move.event (o : Owned σ) (move : Move σ) : Option (Pool.Event σ) :=
  (move.inner o).bind (Monitor.Move.event o.monitor)

theorem pool_of_step (h : o.step move = some p) :
    (∃ event, move.event o = some event ∧ o.monitor.pool.step event = some p.monitor.pool) ∨
      (move.event o = none ∧ p.monitor.pool = o.monitor.pool) := by
  rcases (turn_of_step h).inner with ⟨inner, hinner, hmonitor⟩ | ⟨hinner, hsame⟩
  · rw [Move.event, hinner]
    exact (Monitor.change_of_step hmonitor).pool
  · exact .inr ⟨by rw [Move.event, hinner]; rfl, by rw [hsame]⟩

theorem step_finish {w : Nat} (h : o.step (.thread (.finish w)) = some p) :
    ∃ task, o.monitor.pool.workers[w]? = some (.busy task []) ∧
      p.monitor.pool = o.monitor.pool.conclude w task := by
  rcases pool_of_step h with ⟨event, hevent, hpool⟩ | ⟨hnone, -⟩
  · cases hevent
    exact Pool.step_finish.1 hpool
  · cases hnone

theorem record_of_event {event : Pool.Event σ} (h : move.event o = some event) (l : Monitor.Log σ) :
    (record move o l).toLedger = l.toLedger.record event o.monitor.pool ∧
      (record move o l).reported = l.reportedAfter event l.reported := by
  obtain ⟨inner, hinner, hevent⟩ := Option.bind_eq_some_iff.1 h
  simp only [record, hinner, Monitor.Log.record, hevent, and_self]

theorem record_of_no_event (h : move.event o = none) (l : Monitor.Log σ) :
    (record move o l).toLedger = l.toLedger ∧ (record move o l).reported = l.reported := by
  rw [record]
  split
  next inner hinner =>
    rw [Move.event, hinner, Option.bind_some] at h
    simp only [Monitor.Log.record, h, and_self]
  next => exact ⟨rfl, rfl⟩

/-- Only the others drop the messages, and only a worker ends a task. -/
theorem thread_of_event {event : Pool.Event σ} (h : move.event o = some event) :
    (event = .clearErrors → move = .thread .clearErrors) ∧
      ∀ w, event = .finish w → move = .thread (.finish w) := by
  obtain ⟨inner, hinner, hevent⟩ := Option.bind_eq_some_iff.1 h
  have howners := Monitor.Move.isOwners_event hevent
  cases move with
  | call call => cases hinner
  | owner =>
    have hinner' : inner.isOwners = true := by
      simp only [Move.inner] at hinner
      split at hinner
      next => cases hinner
      next =>
        obtain ⟨-, hhalt⟩ := Option.ite_none_right_eq_some.1 hinner
        cases hhalt
        rfl
      next =>
        cases hinner
        rfl
      next =>
        obtain ⟨-, hstart⟩ := Option.ite_none_left_eq_some.1 hinner
        cases hstart
        rfl
    refine ⟨?_, fun w => ?_⟩
    all_goals
      rintro rfl
      cases howners.trans hinner'
  | thread thread =>
    cases hinner
    cases inner with
    | submitter i =>
      simp only [Monitor.Move.event] at hevent
      split at hevent
      · obtain ⟨-, hsubmit⟩ := Option.ite_none_right_eq_some.1 hevent
        cases hsubmit
        exact ⟨fun hclear => (by cases hclear), fun _ hfinish => (by cases hfinish)⟩
      · cases hevent
    | worker w =>
      simp only [Monitor.Move.event] at hevent
      split at hevent
      · cases hevent
        exact ⟨fun hclear => (by cases hclear), fun _ hfinish => (by cases hfinish)⟩
      · obtain ⟨-, hleave⟩ := Option.ite_none_left_eq_some.1 hevent
        cases hleave
        exact ⟨fun hclear => (by cases hclear), fun _ hfinish => (by cases hfinish)⟩
    | finish w =>
      cases hevent
      exact ⟨fun hclear => (by cases hclear), fun _ hfinish => (by cases hfinish; rfl)⟩
    | clearErrors => exact ⟨fun _ => rfl, fun _ hfinish => by cases hevent; cases hfinish⟩
    | halt | start | resize | act =>
      cases hevent
      exact ⟨fun hclear => (by cases hclear), fun _ hfinish => (by cases hfinish)⟩
    | _ => cases hevent

/-! ## The messages along a run -/

/-- The log agrees with the pool, and tells which messages are there. -/
structure Precise (o : Owned σ) (l : Monitor.Log σ) : Prop where
  kept : Kept o l
  recent : l.reported <:+ l.returned
  alone : o.monitor.pool.Alone l.toLedger

theorem precise_create (size capacity : Nat) (shared : σ) :
    Precise (create size capacity shared) (.fresh (.create size capacity shared)) where
  kept := kept_create size capacity shared
  recent := List.suffix_refl _
  alone := ⟨Nat.le_of_eq List.length_replicate, fun _ _ hmem =>
    nomatch List.eq_of_mem_replicate hmem⟩

theorem Precise.step (h : Precise o l) (hstep : o.step move = some p) :
    Precise p (record move o l) := by
  obtain ⟨hkept, hrecent, halone⟩ := h
  refine ⟨hkept.step hstep, ?_, ?_⟩
  · rcases pool_of_step hstep with ⟨event, hevent, -⟩ | ⟨hnone, -⟩
    · obtain ⟨hledger, hreported⟩ := record_of_event hevent l
      rw [hledger, hreported, Pool.Ledger.returned_record]
      by_cases hclear : event = .clearErrors
      · subst hclear
        exact List.nil_suffix
      · obtain ⟨earlier, hearlier⟩ := hrecent
        rw [Pool.Ledger.reportedAfter_of_ne hclear, ← hearlier, List.append_assoc]
        exact List.suffix_append _ _
    · obtain ⟨hledger, hreported⟩ := record_of_no_event hnone l
      rw [hledger, hreported]
      exact hrecent
  · rcases pool_of_step hstep with ⟨event, hevent, hpool⟩ | ⟨hnone, hsame⟩
    · rw [(record_of_event hevent l).1]
      exact halone.step hkept.books.accounts hpool
    · rw [(record_of_no_event hnone l).1, hsame]
      exact halone

theorem Precise.run {moves : List (Move σ)} (h : Precise o l)
    (hkeep : keep moves o l = some (p, l')) : Precise p l' :=
  keep_induction (fun _ => True) (fun _ h hstep => h.step hstep) (fun _ _ => trivial) h hkeep

theorem Precise.errors_eq (h : Precise o l) : o.monitor.pool.errors = l.messages l.reported :=
  h.kept.books.reported.errors_eq h.kept.books.accounts

theorem Precise.lt_of_reported {ticket : Nat} (h : Precise o l) (hmem : ticket ∈ l.reported) :
    ticket < l.accepted.length :=
  Nat.lt_of_lt_of_le (h.kept.books.accounts.lt_of_returned (h.recent.subset hmem))
    h.kept.books.accounts.length_taken_le

/-- The tickets that come back with a move. -/
def returning (move : Move σ) (o : Owned σ) (l : Monitor.Log σ) : List Nat :=
  match move.event o with
  | some event => l.toLedger.returning event
  | none => []

theorem returned_record (move : Move σ) (o : Owned σ) (l : Monitor.Log σ) :
    (record move o l).returned = l.returned ++ returning move o l := by
  rw [returning]
  split
  next event hevent => rw [(record_of_event hevent l).1, Pool.Ledger.returned_record]
  next hnone => rw [(record_of_no_event hnone l).1, List.append_nil]

theorem reported_record (hmove : move ≠ .thread .clearErrors) (o : Owned σ) (l : Monitor.Log σ) :
    (record move o l).reported = l.reported ++ returning move o l := by
  rw [returning]
  split
  next event hevent =>
    rw [(record_of_event hevent l).2, Pool.Ledger.reportedAfter_of_ne]
    exact fun hclear => hmove ((thread_of_event hevent).1 hclear)
  next hnone => rw [(record_of_no_event hnone l).2, List.append_nil]

/-- A ticket comes back only from the worker that ends its task. -/
theorem returning_eq_nil (hmove : ∀ w, move ≠ .thread (.finish w)) (o : Owned σ)
    (l : Monitor.Log σ) : returning move o l = [] := by
  rw [returning]
  split
  next event hevent =>
    cases event with
    | finish w => exact absurd ((thread_of_event hevent).2 w rfl) (hmove w)
    | _ => rfl
  next => rfl

/-- As long as nobody drops the messages, those of the tasks that end are put after the others. -/
theorem Precise.errors_run {later : List (Move σ)} (h : Precise o l)
    (hkeep : keep later o l = some (p, l')) (hlater : .thread .clearErrors ∉ later) :
    ∃ tickets, l'.returned = l.returned ++ tickets ∧ l'.reported = l.reported ++ tickets ∧
      p.monitor.pool.errors = o.monitor.pool.errors ++ l'.messages tickets := by
  obtain ⟨haccepted, tickets, hreturned, hreported⟩ : l.accepted <+: l'.accepted ∧
      ∃ tickets, l'.returned = l.returned ++ tickets ∧ l'.reported = l.reported ++ tickets := by
    refine keep_induction
      (motive := fun _ k => l.accepted <+: k.accepted ∧
        ∃ tickets, k.returned = l.returned ++ tickets ∧ k.reported = l.reported ++ tickets)
      (· ≠ .thread .clearErrors) ?_ (fun move hmem heq => hlater (heq ▸ hmem))
      ⟨List.prefix_refl _, [], by simp⟩ hkeep
    rintro move o p k hmove ⟨haccepted, tickets, hreturned, hreported⟩ -
    refine ⟨haccepted.trans (prefix_record move o k).1, tickets ++ returning move o k, ?_, ?_⟩
    · rw [returned_record, hreturned, List.append_assoc]
    · rw [reported_record hmove, hreported, List.append_assoc]
  refine ⟨tickets, hreturned, hreported, ?_⟩
  rw [(h.run hkeep).errors_eq, hreported, Pool.Ledger.messages_append,
    Pool.Ledger.messages_of_prefix haccepted (fun _ => h.lt_of_reported), h.errors_eq]

/-! ## One worker -/

/-- The pool has one worker, and the owner's call leaves it so. -/
def Single (o : Owned σ) : Prop :=
  o.monitor.pool.size = 1 ∧ ∀ n, .setSize n ∈ o.todo → n ≤ 1

theorem Single.step (h : Single o) (hmove : ∀ n, move = .call (.resize n) → n ≤ 1)
    (hstep : o.step move = some p) : Single p := by
  obtain ⟨hone, htodo⟩ := h
  cases turn_of_step hstep with
  | @called call =>
    refine ⟨hone, fun n hmem => ?_⟩
    cases call with
    | resize size =>
      obtain rfl : n = size := by simpa [Call.parts] using hmem
      exact hmove n rfl
    | _ => simp [Call.parts] at hmem
  | halted _ hmonitor =>
    obtain ⟨-, hpool, -⟩ := step_halt hmonitor
    exact ⟨by rw [hpool]; exact hone, htodo⟩
  | stopped hparts | stayed hparts =>
    exact ⟨hone, fun n hmem => htodo n (hparts ▸ List.mem_cons_of_mem _ hmem)⟩
  | @sized size todo monitor hparts hmonitor =>
    obtain ⟨-, hpool, -⟩ := step_resize hmonitor
    have hsize : size ≤ 1 := htodo size (hparts ▸ List.mem_cons_self)
    refine ⟨?_, fun n hmem => htodo n (hparts ▸ List.mem_cons_of_mem _ hmem)⟩
    rw [hpool]
    exact Nat.max_eq_right hsize
  | started hparts hmonitor =>
    obtain ⟨-, hpool, -⟩ := step_start hmonitor
    exact ⟨by rw [hpool]; exact hone, fun n hmem => htodo n (hparts ▸ List.mem_cons_of_mem _ hmem)⟩
  | thread hothers _ hmonitor =>
    obtain ⟨-, hsize, -⟩ := (Monitor.change_of_step hmonitor).kept hothers
    exact ⟨hsize.trans hone, htodo⟩

/-- The ticket that comes back to a pool with one worker is higher than those before. -/
theorem Precise.pairwise_step (h : Precise o l) (hone : o.monitor.pool.size = 1)
    (hstep : o.step move = some p) (hsorted : l.reported.Pairwise (· < ·)) :
    (record move o l).reported.Pairwise (· < ·) := by
  by_cases hclear : move = .thread .clearErrors
  · subst hclear
    exact List.Pairwise.nil
  rw [reported_record hclear]
  by_cases hfinish : ∃ w, move = .thread (.finish w)
  · obtain ⟨w, rfl⟩ := hfinish
    obtain ⟨task, hbusy, -⟩ := step_finish hstep
    obtain ⟨ticket, hheld, hreturning, -, hfresh⟩ := h.kept.books.accounts.returning_finish hbusy
    have hback : returning (.thread (.finish w)) o l = [ticket] := hreturning
    rw [hback]
    refine List.pairwise_append.2 ⟨hsorted, List.pairwise_singleton _ _, ?_⟩
    intro other hother last hlast
    rw [List.mem_singleton.1 hlast]
    exact h.alone.lt_of_returned h.kept.books.accounts hone hheld hfresh (h.recent.subset hother)
  · rw [returning_eq_nil (fun w hw => hfinish ⟨w, hw⟩), List.append_nil]
    exact hsorted

theorem Precise.pairwise_run {later : List (Move σ)} (h : Precise o l) (htodo : o.todo = [])
    (hone : o.monitor.pool.size = 1) (hlater : ∀ n, .call (.resize n) ∈ later → n ≤ 1)
    (hsorted : l.reported.Pairwise (· < ·)) (hkeep : keep later o l = some (p, l')) :
    l'.reported.Pairwise (· < ·) := by
  have hsingle : Single o := ⟨hone, by simp [htodo]⟩
  obtain ⟨-, -, hsorted'⟩ := keep_induction
    (motive := fun o l => Precise o l ∧ Single o ∧ l.reported.Pairwise (· < ·))
    (fun move => ∀ n, move = .call (.resize n) → n ≤ 1)
    (fun hmove hq hstep => ⟨hq.1.step hstep, hq.2.1.step hmove hstep,
      hq.1.pairwise_step hq.2.1.1 hstep hq.2.2⟩)
    (fun move hmem n hmove => hlater n (hmove ▸ hmem)) ⟨h, hsingle, hsorted⟩ hkeep
  exact hsorted'

/-! ## What the messages are -/

/-- The messages of a pool, whatever calls its owner makes and whatever others submit, wait for and
drop in between.

They are those of the tasks that have ended since the messages were last dropped, in the order in
which they ended, and each of those tasks has ended once. A task ends when its worker says how it
went: then its message is put last, if it failed. Nothing else changes the messages, but that they
can be dropped, whether or not tasks that have failed are still to end. So a start, a stop, a cycle
and a resize leave all messages as they are, but for those of the tasks that end meanwhile.

With one worker the messages are in the order in which their tasks were accepted. -/
theorem errors_exact {size capacity : Nat} {shared : σ} {moves : List (Move σ)}
    (hrun : run moves (create size capacity shared) = some o) :
    ∃ l : Monitor.Log σ, keep moves (create size capacity shared)
        (.fresh (.create size capacity shared)) = some (o, l) ∧
      o.monitor.pool.errors = l.messages l.reported ∧ l.reported <:+ l.returned ∧
      l.returned.Nodup ∧
      (∀ move p, o.step move = some p →
        (∀ w, move = .thread (.finish w) → ∃ task ticket,
          o.monitor.pool.workers[w]? = some (.busy task []) ∧ l.accepted[ticket]? = some task ∧
          ticket ∉ l.returned ∧ (record move o l).returned = l.returned ++ [ticket] ∧
          p.monitor.pool.errors =
            o.monitor.pool.errors ++ (task.trouble.map Trouble.message).toList) ∧
        (move = .thread .clearErrors → (record move o l).returned = l.returned ∧
          (record move o l).reported = [] ∧ p.monitor.pool.errors = []) ∧
        ((∀ w, move ≠ .thread (.finish w)) → move ≠ .thread .clearErrors →
          (record move o l).returned = l.returned ∧
            p.monitor.pool.errors = o.monitor.pool.errors)) ∧
      ∀ later p l', keep later o l = some (p, l') →
        (.thread .clearErrors ∉ later → ∃ tickets, l'.returned = l.returned ++ tickets ∧
          l'.reported = l.reported ++ tickets ∧
          p.monitor.pool.errors = o.monitor.pool.errors ++ l'.messages tickets) ∧
        (o.todo = [] → o.monitor.pool.size = 1 → (∀ n, .call (.resize n) ∈ later → n ≤ 1) →
          l.reported.Pairwise (· < ·) → l'.reported.Pairwise (· < ·)) := by
  obtain ⟨l, hkeep⟩ := exists_log (.fresh (.create size capacity shared)) hrun
  have hprecise := (precise_create size capacity shared).run hkeep
  have haccounts := hprecise.kept.books.accounts
  refine ⟨l, hkeep, hprecise.errors_eq, hprecise.recent, (List.nodup_append.1 haccounts.nodup).1,
    fun move p hstep => ⟨?_, ?_, fun hfinish hclear => ?_⟩,
    fun later p l' hlater => ⟨hprecise.errors_run hlater, fun htodo hone hsizes hsorted =>
      hprecise.pairwise_run htodo hone hsizes hsorted hlater⟩⟩
  · rintro w rfl
    obtain ⟨task, hbusy, hpool⟩ := step_finish hstep
    obtain ⟨ticket, -, hreturning, haccepted, hfresh⟩ := haccounts.returning_finish hbusy
    refine ⟨task, ticket, hbusy, haccepted, hfresh, ?_, by rw [hpool]; rfl⟩
    rw [returned_record]
    exact congrArg (l.returned ++ ·) hreturning
  · rintro rfl
    exact ⟨rfl, rfl, (hprecise.step hstep).errors_eq⟩
  · have hsame : (record move o l).returned = l.returned := by
      rw [returned_record, returning_eq_nil hfinish, List.append_nil]
    have hmove : keep [move] o l = some (p, record move o l) := by simp [keep, hstep]
    obtain ⟨tickets, hreturned, -, herrors⟩ :=
      hprecise.errors_run hmove (by simpa using Ne.symm hclear)
    obtain rfl : tickets = [] := List.append_right_eq_self.1 (hreturned.symm.trans hsame)
    refine ⟨hsame, herrors.trans ?_⟩
    exact List.append_nil _

/-- Two workers. The second task ends first, and its message is dropped while the first task, which
fails, is still to end. Then the pool is given one worker, and a third task breaks off. -/
theorem errors_exact_dropped_meanwhile :
    let early : List (Move Unit) := [.thread (.call ⟨[], some (.failed "page missing" [])⟩),
      .thread (.submitter 0), .thread (.signalWork 0 none), .thread (.worker 0),
      .thread (.signalRoom 0 none), .thread (.call ⟨[], some (.failed "no room" [])⟩),
      .thread (.submitter 1), .thread (.signalWork 1 none), .thread (.worker 1),
      .thread (.signalRoom 1 none), .thread (.finish 1), .thread .clearErrors]
    let resizing : List (Move Unit) := [.thread (.finish 0), .thread (.announce 0),
      .call (.resize 1), .owner, .thread (.worker 0), .thread (.worker 0), .thread .closer,
      .thread .closer, .thread .closer, .owner, .owner, .owner]
    let late : List (Move Unit) := [.thread (.call ⟨[], some (.brokeOff none)⟩),
      .thread (.submitter 2), .thread (.signalWork 2 none), .thread (.worker 0),
      .thread (.signalRoom 0 none), .thread (.finish 0)]
    ∃ o p q l l' l'', run early (create 2 1 ()) = some o ∧
      keep early (create 2 1 ()) (.fresh (.create 2 1 ())) = some (o, l) ∧
      keep resizing o l = some (p, l') ∧ keep late p l' = some (q, l'') ∧
      o.monitor.pool.errors = [] ∧ l.returned = [1] ∧
      p.monitor.pool.errors = o.monitor.pool.errors ++ ["page missing"] ∧
      p.todo = [] ∧ p.monitor.pool.size = 1 ∧
      q.monitor.pool.errors = ["page missing", "Unknown error"] ∧
      l''.reported = [0, 2] ∧ l''.reported.Pairwise (· < ·) := by
  intro early resizing late
  obtain ⟨o, l, hearly, hkeep, hback, hdropped, p, l', hkeep', hrun, hall, htodo, hone, hback',
      hmessage, hsingle, q, l'', hkeep'', herrors', hreported⟩ :
      ∃ o l, run early (create 2 1 ()) = some o ∧
        keep early (create 2 1 ()) (.fresh (.create 2 1 ())) = some (o, l) ∧
        l.returned = [1] ∧ l.reported = [] ∧
        ∃ p l', keep resizing o l = some (p, l') ∧
          run (early ++ resizing) (create 2 1 ()) = some p ∧
          keep (early ++ resizing) (create 2 1 ()) (.fresh (.create 2 1 ())) = some (p, l') ∧
          p.todo = [] ∧ p.monitor.pool.size = 1 ∧ l'.returned = [1, 0] ∧
          l'.messages [0] = ["page missing"] ∧ l'.reported = [0] ∧
          ∃ q l'', keep late p l' = some (q, l'') ∧
            q.monitor.pool.errors = ["page missing", "Unknown error"] ∧ l''.reported = [0, 2] := by
    -- Evaluation is slow under local names.
    simp only [early, resizing, late]
    exact ⟨_, _, rfl, rfl, rfl, rfl, _, _, rfl, rfl, rfl, rfl, rfl, rfl, rfl, rfl, _, _, rfl, rfl,
      rfl⟩
  obtain ⟨m, hm, herrors, -, -, -, hlater⟩ := errors_exact hearly
  cases hkeep.symm.trans hm
  obtain ⟨⟨tickets, hreturned, -, hmore⟩, -⟩ :=
    (hlater resizing p l' hkeep').imp_left (· (by simp [resizing]))
  obtain rfl : tickets = [0] := by
    rw [hback, hback'] at hreturned
    simpa using hreturned.symm
  obtain ⟨m', hm', -, -, -, -, hlast⟩ := errors_exact hrun
  cases hall.symm.trans hm'
  have hsorted := (hlast late q l'' hkeep'').2 htodo hone (by simp [late]) (by simp [hsingle])
  have hnone : o.monitor.pool.errors = [] := by
    rw [herrors, hdropped]
    rfl
  exact ⟨o, p, q, l, l', l'', hearly, hkeep, hkeep', hkeep'', hnone, hback, hmessage ▸ hmore, htodo,
    hone, herrors', hreported, hsorted⟩

end Owned

end PointTiles
