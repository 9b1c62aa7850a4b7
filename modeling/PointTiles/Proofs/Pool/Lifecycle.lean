import PointTiles.Proofs.Pool.Barrier
import PointTiles.Proofs.Pool.Calls

/-! # The life of a pool

* `Owned.keep`: the log of a pool along the moves of its owner and the others.
* `Owned.Kept`, `Kept.step`: the pool is ready for its owner's next part, and the log agrees with it.
* `Ended`, `Drained.step`: when the owner has stopped the pool, every task accepted before has ended.
* `Part.Void`, `keep_of_void`: a call that has nothing to do leaves everything to the others.
* `Monitor.Books.exists_call`: every task that was accepted is that of a call, and of one that was not
  refused.
* `lifecycle`: all this for any calls of the owner and of the others, in any order.
-/

namespace PointTiles
set_option autoImplicit false

variable {σ : Type}

/-! ## Logs grow -/

namespace Pool.Ledger

variable {p : Pool σ} {l : Ledger σ}

theorem taken_prefix_record (event : Event σ) : l.taken <+: (l.record event p).taken := by
  cases event with
  | take w => exact List.prefix_append _ _
  | finish w =>
    simp only [record, History.record]
    split <;> exact List.prefix_refl _
  | _ => exact List.prefix_refl _

theorem returned_prefix_record (event : Event σ) : l.returned <+: (l.record event p).returned := by
  cases event with
  | finish w => exact List.prefix_append _ _
  | _ => exact List.prefix_refl _

end Pool.Ledger

namespace Monitor

variable {m n : Monitor σ} {move : Move σ} {l : Log σ}

theorem Log.prefix_record (move : Move σ) (m : Monitor σ) (l : Log σ) :
    l.accepted <+: (l.record move m).accepted ∧ l.taken <+: (l.record move m).taken ∧
      l.returned <+: (l.record move m).returned := by
  rw [record]
  split
  · exact ⟨Pool.Ledger.accepted_prefix_record _, Pool.Ledger.taken_prefix_record _,
      Pool.Ledger.returned_prefix_record _⟩
  · exact ⟨List.prefix_refl _, List.prefix_refl _, List.prefix_refl _⟩

/-! ## Calls that were refused -/

theorem getElem?_replace {before after : List (Submitter σ)} {s next : Submitter σ} {i : Nat}
    {b : Bool} (hs : s.hasReturned = false)
    (hi : (before ++ s :: after)[i]? = some (.returned b)) :
    (before ++ next :: after)[i]? = some (.returned b) := by
  have hne : before.length ≠ i := by
    rintro rfl
    rw [Places.getElem?_split, Option.some.injEq] at hi
    rw [hi] at hs
    cases hs
  rw [← Places.set_split before after s next, List.getElem?_set_ne hne]
  exact hi

/-- A call that has returned stays so. -/
theorem Change.returned {i : Nat} {b : Bool} (h : Change m move n)
    (hi : m.submitters[i]? = some (.returned b)) : n.submitters[i]? = some (.returned b) := by
  cases h with
  | called => rwa [List.getElem?_append_left (List.getElem?_eq_some_iff.1 hi).1]
  | refused hsubmitters | queued hsubmitters | lacksRoom hsubmitters | signalledWork hsubmitters
  | submitterStrays hsubmitters =>
    rw [hsubmitters] at hi
    exact getElem?_replace rfl hi
  | signalledRoom hhands hwake =>
    rcases wakeOne_cases hwake with ⟨-, rfl⟩ | ⟨before, s, after, hsubmitters, hasleep, rfl⟩
    · exact hi
    · obtain ⟨task, rfl⟩ := Submitter.exists_of_isAsleep hasleep
      rw [hsubmitters] at hi
      exact getElem?_replace rfl hi
  | wokeSubmitters =>
    rw [List.getElem?_map, hi]
    rfl
  | _ => exact hi

/-- Nor does the log change what it says of that call. -/
theorem Change.call_kept {i : Nat} {b : Bool} {call : Call σ} (h : Change m move n)
    (hi : m.submitters[i]? = some (.returned b)) (hcall : l.calls[i]? = some call) :
    (l.record move m).calls[i]? = some call := by
  rw [Log.calls_record]
  cases h with
  | called =>
    have hlt := (List.getElem?_eq_some_iff.1 hcall).1
    rwa [Log.callsAfter, List.getElem?_append_left hlt]
  | @queued before after task pool hsubmitters hpool =>
    have hne : before.length ≠ i := by
      rintro rfl
      rw [hsubmitters, Places.getElem?_split] at hi
      cases hi
    simp only [Log.callsAfter, event_submitter_of_some hsubmitters hpool]
    rwa [List.getElem?_set_ne hne]
  | refused hsubmitters hstopped =>
    have hevent := event_submitter_of_none hsubmitters (fun hroom => by simp [hstopped] at hroom)
    simpa only [Log.callsAfter, hevent] using hcall
  | lacksRoom hsubmitters hrunning hfull =>
    have hevent := event_submitter_of_none hsubmitters (fun hroom => Nat.not_lt.2 hfull hroom.2)
    simpa only [Log.callsAfter, hevent] using hcall
  | _ => exact hcall

theorem running_of_signalling {i : Nat} (h : m.step (.submitter i) = some n)
    (hi : n.submitters[i]? = some .signalling) : m.pool.running = true := by
  generalize hmove : Move.submitter i = move at h
  cases change_of_step h with
  | queued hsubmitters hpool => exact (Pool.step_submit.1 hpool).1.1
  | refused | lacksRoom =>
    cases hmove
    rw [Places.getElem?_split] at hi
    cases hi
  | _ => cases hmove

/-- A refusal changes nothing but the call that is refused. -/
theorem refused_of_step {i : Nat} (h : m.step (.submitter i) = some n)
    (hi : n.submitters[i]? = some (.returned false)) :
    m.pool.running = false ∧ n = { m with submitters := m.submitters.set i (.returned false) } ∧
      (∃ task, m.submitters[i]? = some (.checking task)) ∧
      ∀ l : Log σ, l.record (.submitter i) m = l := by
  generalize hmove : Move.submitter i = move at h
  cases change_of_step h with
  | @refused before after task hsubmitters hstopped =>
    cases hmove
    have hevent := event_submitter_of_none hsubmitters (fun hroom => by simp [hstopped] at hroom)
    refine ⟨hstopped, ?_, ⟨task, ?_⟩, fun l => ?_⟩
    · rw [hsubmitters, Places.set_split]
    · rw [hsubmitters, Places.getElem?_split]
    · simp only [Log.record, Log.callsAfter, hevent]
  | queued | lacksRoom =>
    cases hmove
    rw [Places.getElem?_split] at hi
    cases hi
  | _ => cases hmove

theorem Books.exists_call {ticket : Nat} {task : Pool.Task σ} (hm : Books m l)
    (htask : l.accepted[ticket]? = some task) :
    ∃ i : Nat, l.calls[i]? = some ⟨task, some ticket⟩ := by
  have hlt := (List.getElem?_eq_some_iff.1 htask).1
  have hgiven : ticket ∈ l.calls.filterMap Call.ticket :=
    hm.once.mem_iff.2 (List.mem_range.2 hlt)
  obtain ⟨call, hmem, hticket⟩ := List.mem_filterMap.1 hgiven
  obtain ⟨i, hi⟩ := List.mem_iff_getElem?.1 hmem
  obtain ⟨before, after, s, before', after', -, -, -, -, -, hbooked, -⟩ :=
    Places.forall₂_split hm.calls.flip hi
  refine ⟨i, ?_⟩
  have hbooked : Booked l.accepted s call := hbooked
  cases hbooked with
  | checking | asleep | refused => cases hticket
  | signalling htask' | accepted htask' =>
    cases hticket
    rw [hi, Option.some.inj (htask.symm.trans htask')]

end Monitor

/-! ## The log of an owned pool -/

namespace Owned

variable {o p : Owned σ} {move : Move σ} {l l' : Monitor.Log σ}

/-- The move of the monitor that a move comes to, if it comes to one. -/
def Move.inner (o : Owned σ) : Move σ → Option (Monitor.Move σ)
  | .call _ => none
  | .owner =>
    match o.todo with
    | [] => none
    | .stop :: _ => if o.monitor.pool.running then some .halt else none
    | .setSize size :: _ => some (.resize size)
    | .start :: _ => if o.monitor.pool.running then none else some .start
  | .thread move => some move

def record (move : Move σ) (o : Owned σ) (l : Monitor.Log σ) : Monitor.Log σ :=
  match move.inner o with
  | some move => l.record move o.monitor
  | none => l

/-- The pool, its owner and its log after a list of moves, if they can be made in this order. -/
def keep : List (Move σ) → Owned σ → Monitor.Log σ → Option (Owned σ × Monitor.Log σ)
  | [], o, l => some (o, l)
  | move :: moves, o, l => (o.step move).bind fun next => keep moves next (record move o l)

theorem Turn.inner (h : Turn o move p) :
    (∃ inner, move.inner o = some inner ∧ o.monitor.step inner = some p.monitor) ∨
      (move.inner o = none ∧ p.monitor = o.monitor) := by
  cases h with
  | called => exact .inr ⟨rfl, rfl⟩
  | halted htodo hmonitor =>
    obtain ⟨hrunning, -⟩ := step_halt hmonitor
    exact .inl ⟨.halt, by simp [Move.inner, htodo, hrunning], hmonitor⟩
  | stopped htodo hstopped => exact .inr ⟨by simp [Move.inner, htodo, hstopped], rfl⟩
  | @sized size todo monitor htodo hmonitor =>
    exact .inl ⟨.resize size, by simp [Move.inner, htodo], hmonitor⟩
  | stayed htodo hrunning => exact .inr ⟨by simp [Move.inner, htodo, hrunning], rfl⟩
  | started htodo hmonitor =>
    obtain ⟨hstopped, -⟩ := step_start hmonitor
    exact .inl ⟨.start, by simp [Move.inner, htodo, hstopped], hmonitor⟩
  | thread hothers hcall hmonitor => exact .inl ⟨_, rfl, hmonitor⟩

theorem prefix_record (move : Move σ) (o : Owned σ) (l : Monitor.Log σ) :
    l.accepted <+: (record move o l).accepted ∧ l.taken <+: (record move o l).taken ∧
      l.returned <+: (record move o l).returned := by
  rw [record]
  split
  · exact l.prefix_record _ _
  · exact ⟨List.prefix_refl _, List.prefix_refl _, List.prefix_refl _⟩

/-- The pool is ready for what the owner has to do next, and the log agrees with it. -/
structure Kept (o : Owned σ) (l : Monitor.Log σ) : Prop where
  orderly : Orderly o
  books : o.monitor.Books l

theorem Kept.step (h : Kept o l) (hstep : o.step move = some p) : Kept p (record move o l) := by
  refine ⟨h.orderly.step hstep, ?_⟩
  rcases (turn_of_step hstep).inner with ⟨inner, hinner, hmonitor⟩ | ⟨hinner, hsame⟩
  · simp only [record, hinner]
    exact h.books.step hmonitor
  · simp only [record, hinner, hsame]
    exact h.books

theorem kept_create (size capacity : Nat) (shared : σ) :
    Kept (create size capacity shared) (.fresh (.create size capacity shared)) :=
  ⟨orderly_create size capacity shared, Monitor.books_create size capacity shared⟩

/-- What every move keeps holds after a run; a move may be of any kind that all moves of the run are. -/
theorem keep_induction {motive : Owned σ → Monitor.Log σ → Prop} {moves : List (Move σ)}
    (allowed : Move σ → Prop)
    (hstep : ∀ {move o p} {l : Monitor.Log σ}, allowed move → motive o l → o.step move = some p →
      motive p (record move o l))
    (hallowed : ∀ move ∈ moves, allowed move) (hstart : motive o l)
    (hkeep : keep moves o l = some (p, l')) : motive p l' := by
  induction moves generalizing o l with
  | nil =>
    simp only [keep, Option.some.injEq, Prod.mk.injEq] at hkeep
    obtain ⟨rfl, rfl⟩ := hkeep
    exact hstart
  | cons move moves ih =>
    obtain ⟨next, hnext, hrest⟩ := Option.bind_eq_some_iff.1 hkeep
    obtain ⟨hfirst, hothers⟩ := List.forall_mem_cons.1 hallowed
    exact ih hothers (hstep hfirst hstart hnext) hrest

theorem Kept.run {moves : List (Move σ)} (h : Kept o l) (hkeep : keep moves o l = some (p, l')) :
    Kept p l' :=
  keep_induction (fun _ => True) (fun _ h hstep => h.step hstep) (fun _ _ => trivial) h hkeep

/-! ## What a stop waits for -/

/-- Every task accepted before has ended. -/
def Ended (before l : Monitor.Log σ) : Prop :=
  before.accepted <+: l.taken ∧ ∀ ticket < before.accepted.length, ticket ∈ l.returned

variable {before : Monitor.Log σ}

/-- In a pool that is stopped and left by its workers, every task has ended. -/
theorem Kept.ended (h : Kept o l) (hbefore : before.accepted <+: l.accepted)
    (hstopped : o.monitor.pool.running = false) (habsent : o.monitor.closer = .absent) :
    Ended before l := by
  obtain ⟨-, hworkers, hqueue, -⟩ := h.orderly.sane.down hstopped habsent
  have htaken : l.accepted = l.taken := by
    rw [h.books.accounts.fifo, hqueue, List.append_nil]
  refine ⟨htaken ▸ hbefore, fun ticket hticket => ?_⟩
  have hlt := Nat.lt_of_lt_of_le hticket hbefore.length_le
  have hidle : ∀ worker ∈ o.monitor.pool.workers, worker = .idle := by
    rw [hworkers]
    exact List.forall_mem_nil _
  exact (h.books.accounts.mem_returned hqueue hidle (List.getElem?_eq_getElem hlt)).2

/-- Either the owner has still to stop the pool, or every task accepted before has ended. -/
def Drained (before : Monitor.Log σ) (o : Owned σ) (l : Monitor.Log σ) : Prop :=
  before.accepted <+: l.accepted ∧ (.stop ∈ o.todo ∨ Ended before l)

theorem Drained.step (hkept : Kept o l) (h : Drained before o l) (hwithin : move.Within)
    (hstep : o.step move = some p) : Drained before p (record move o l) := by
  obtain ⟨haccepted, htaken, hreturned⟩ := prefix_record move o l
  obtain ⟨hbefore, hdone⟩ := h
  refine ⟨hbefore.trans haccepted, ?_⟩
  rcases hdone with hstop | ⟨hended, hback⟩
  · cases turn_of_step hstep with
    | called => exact absurd rfl (hwithin _)
    | halted | thread => exact .inl hstop
    | stopped htodo hstopped habsent =>
      exact .inr ((hkept.step hstep).ended (hbefore.trans haccepted) hstopped habsent)
    | sized htodo | stayed htodo | started htodo =>
      rw [htodo] at hstop
      exact .inl (List.mem_of_ne_of_mem (by simp) hstop)
  · exact .inr ⟨hended.trans htaken, fun ticket hticket => hreturned.subset (hback ticket hticket)⟩

/-! ## Calls with nothing to do -/

/-- There is nothing to do for this part. -/
def Part.Void (m : Monitor σ) : Part → Prop
  | .stop => m.pool.running = false ∧ m.closer = .absent
  | .setSize _ => False
  | .start => m.pool.running = true

/-- The move of a thread, if it is one. -/
def Move.thread? : Move σ → Option (Monitor.Move σ)
  | .thread move => some move
  | _ => none

/-- While the owner's call has nothing to do, all that happens are the moves of the others. -/
theorem keep_of_void {later : List (Move σ)} (hvoid : ∀ part ∈ o.todo, part.Void o.monitor)
    (hwithin : ∀ move ∈ later, Move.Within move) (hkeep : keep later o l = some (p, l')) :
    Monitor.keep (later.filterMap Move.thread?) o.monitor l = some (p.monitor, l') := by
  induction later generalizing o l with
  | nil =>
    simp only [keep, Option.some.injEq, Prod.mk.injEq] at hkeep
    obtain ⟨rfl, rfl⟩ := hkeep
    rfl
  | cons move later ih =>
    obtain ⟨next, hnext, hrest⟩ := Option.bind_eq_some_iff.1 hkeep
    obtain ⟨hfirst, hothers⟩ := List.forall_mem_cons.1 hwithin
    cases turn_of_step hnext with
    | called => exact absurd rfl (hfirst _)
    | halted htodo hmonitor =>
      obtain ⟨hrunning, -⟩ := step_halt hmonitor
      obtain ⟨hstopped, -⟩ := hvoid .stop (by simp [htodo])
      exact absurd (hrunning.symm.trans hstopped) (by decide)
    | sized htodo => exact absurd (hvoid _ (by rw [htodo]; exact List.mem_cons_self)) id
    | started htodo hmonitor =>
      obtain ⟨hstopped, -⟩ := step_start hmonitor
      have hrunning : o.monitor.pool.running = true := hvoid .start (by simp [htodo])
      exact absurd (hrunning.symm.trans hstopped) (by decide)
    | @stopped todo htodo hstopped =>
      have hsame : record .owner o l = l := by simp [record, Move.inner, htodo, hstopped]
      rw [htodo] at hvoid
      exact ih (o := { o with todo }) (fun part hpart => hvoid part (List.mem_cons_of_mem _ hpart))
        hothers (hsame ▸ hrest)
    | @stayed todo htodo hrunning =>
      have hsame : record .owner o l = l := by simp [record, Move.inner, htodo, hrunning]
      rw [htodo] at hvoid
      exact ih (o := { o with todo }) (fun part hpart => hvoid part (List.mem_cons_of_mem _ hpart))
        hothers (hsame ▸ hrest)
    | @thread inner monitor howners hcall hmonitor =>
      obtain ⟨hrunning, -, habsent⟩ := (Monitor.change_of_step hmonitor).kept howners
      have hvoid' : ∀ part ∈ o.todo, part.Void monitor := by
        intro part hpart
        have hpart' := hvoid part hpart
        cases part with
        | stop => exact ⟨hrunning.trans hpart'.1, habsent hpart'.2⟩
        | setSize size => exact hpart'
        | start => exact hrunning.trans hpart'
      have hkept : Monitor.keep (later.filterMap Move.thread?) monitor (l.record inner o.monitor) =
          some (p.monitor, l') := ih hvoid' hothers hrest
      simpa only [List.filterMap_cons, Move.thread?, Monitor.keep, hmonitor] using hkept

/-! ## Submissions that are refused -/

/-- The call of a submitter that has returned stays as it is. -/
theorem returned_of_keep {i : Nat} {b : Bool} {call : PointTiles.Call σ} {later : List (Move σ)}
    (hi : o.monitor.submitters[i]? = some (.returned b)) (hcall : l.calls[i]? = some call)
    (hkeep : keep later o l = some (p, l')) :
    p.monitor.submitters[i]? = some (.returned b) ∧ l'.calls[i]? = some call := by
  refine keep_induction
    (motive := fun o l => o.monitor.submitters[i]? = some (.returned b) ∧ l.calls[i]? = some call)
    (fun _ => True) ?_ (fun _ _ => trivial) ⟨hi, hcall⟩ hkeep
  rintro move o p l - ⟨hi, hcall⟩ hstep
  rcases (turn_of_step hstep).inner with ⟨inner, hinner, hmonitor⟩ | ⟨hinner, hsame⟩
  · have hchange := Monitor.change_of_step hmonitor
    simp only [record, hinner]
    exact ⟨hchange.returned hi, hchange.call_kept hi hcall⟩
  · simp only [record, hinner, hsame]
    exact ⟨hi, hcall⟩

/-- A task that is taken is that of a call that was not refused. -/
theorem Kept.exists_other {i ticket : Nat} {task task' : Pool.Task σ} (h : Kept o l)
    (hcall : l.calls[i]? = some ⟨task, none⟩) (htaken : l.taken[ticket]? = some task') :
    ∃ j : Nat, j ≠ i ∧ l.calls[j]? = some ⟨task', some ticket⟩ := by
  have haccepted : l.accepted[ticket]? = some task' := by
    rw [h.books.accounts.fifo, List.getElem?_append_left (List.getElem?_eq_some_iff.1 htaken).1]
    exact htaken
  obtain ⟨j, hj⟩ := h.books.exists_call haccepted
  refine ⟨j, ?_, hj⟩
  rintro rfl
  rw [hcall] at hj
  cases hj

theorem exists_log {moves : List (Move σ)} (l : Monitor.Log σ) (hrun : run moves o = some p) :
    ∃ l', keep moves o l = some (p, l') := by
  induction moves generalizing o l with
  | nil =>
    simp only [run, Option.some.injEq] at hrun
    exact ⟨l, by rw [keep, hrun]⟩
  | cons move moves ih =>
    obtain ⟨next, hnext, hrest⟩ := Option.bind_eq_some_iff.1 hrun
    obtain ⟨l', hkeep⟩ := ih (record move o l) hrest
    exact ⟨l', by rw [keep, hnext]; exact hkeep⟩

/-! ## Calls -/

/-- A call of the owner, when it has returned and no other call has begun. -/
theorem Kept.call {call : Call} {later : List (Move σ)} (h : Kept o l)
    (hwithin : ∀ move ∈ later, Move.Within move)
    (hkeep : keep (.call call :: later) o l = some (p, l')) (htodo : p.todo = []) :
    p.monitor.pool.running = runningAfter call.parts o.monitor.pool.running ∧
      p.monitor.pool.size = sizeAfter call.parts o.monitor.pool.size ∧
      (.stop ∈ call.parts → Ended l l') := by
  obtain ⟨begun, hbegin, hrest⟩ := Option.bind_eq_some_iff.1 hkeep
  have hbegun := h.step hbegin
  cases turn_of_step hbegin with
  | called hempty hquiet =>
    have haim : p.aim = aim { o with todo := call.parts } :=
      keep_induction (motive := fun q _ => q.aim = aim { o with todo := call.parts }) Move.Within
        (fun hwithin haim hstep => (aim_of_step hwithin hstep).trans haim) hwithin rfl hrest
    simp only [aim, htodo, runningAfter, sizeAfter, Prod.mk.injEq] at haim
    refine ⟨haim.1, haim.2, fun hstop => ?_⟩
    obtain ⟨-, hdrained⟩ := keep_induction (motive := fun q k => Kept q k ∧ Drained l q k)
      Move.Within (fun hwithin hq hstep => ⟨hq.1.step hstep, hq.2.step hq.1 hwithin hstep⟩) hwithin
      ⟨hbegun, List.prefix_refl _, .inl hstop⟩ hrest
    rcases hdrained.2 with hleft | hended
    · rw [htodo] at hleft
      cases hleft
    · exact hended

/-- A start of a running pool, or a stop of a stopped one. -/
theorem keep_of_idle_call {call : Call} {later : List (Move σ)}
    (hidle : (call = .start ∧ o.monitor.pool.running = true) ∨
      (call = .stop ∧ o.monitor.pool.running = false))
    (hwithin : ∀ move ∈ later, Move.Within move)
    (hkeep : keep (.call call :: later) o l = some (p, l')) :
    Monitor.keep (later.filterMap Move.thread?) o.monitor l = some (p.monitor, l') := by
  obtain ⟨begun, hbegin, hrest⟩ := Option.bind_eq_some_iff.1 hkeep
  cases turn_of_step hbegin with
  | called hempty hquiet =>
    refine keep_of_void (o := { o with todo := call.parts }) (fun part hpart => ?_) hwithin hrest
    rcases hidle with ⟨rfl, hrunning⟩ | ⟨rfl, hstopped⟩
    · obtain rfl := List.mem_singleton.1 hpart
      exact hrunning
    · obtain rfl := List.mem_singleton.1 hpart
      exact ⟨hstopped, (Monitor.quiet_iff.1 hquiet).1⟩

/-- A submission that is refused. -/
theorem Kept.refused {i : Nat} (h : Kept o l) (hstep : o.step (.thread (.submitter i)) = some p)
    (hi : p.monitor.submitters[i]? = some (.returned false)) :
    o.monitor.pool.running = false ∧
      p = { o with
        monitor := { o.monitor with
          submitters := o.monitor.submitters.set i (.returned false) } } ∧
      record (.thread (.submitter i)) o l = l ∧
      ∃ task, o.monitor.submitters[i]? = some (.checking task) ∧
        ∀ later q l', keep later p l = some (q, l') →
          q.monitor.submitters[i]? = some (.returned false) ∧
          l'.calls[i]? = some ⟨task, none⟩ ∧
          ∀ (ticket : Nat) task', l'.taken[ticket]? = some task' →
            ∃ j : Nat, j ≠ i ∧ l'.calls[j]? = some ⟨task', some ticket⟩ := by
  have hkept := h.step hstep
  cases turn_of_step hstep with
  | thread hothers hcall hmonitor =>
    obtain ⟨hstopped, rfl, ⟨task, htask⟩, hlog⟩ := Monitor.refused_of_step hmonitor hi
    have hsame : record (.thread (.submitter i)) o l = l := hlog l
    rw [hsame] at hkept
    refine ⟨hstopped, rfl, hsame, task, htask, fun later q l' hkeep => ?_⟩
    obtain ⟨before, after, call, before', after', -, hcalls, -, hlen, -, hbooked, -⟩ :=
      Places.forall₂_split h.books.calls htask
    cases hbooked
    have hcall : l.calls[i]? = some ⟨task, none⟩ := by
      rw [hcalls, ← hlen, Places.getElem?_split]
    obtain ⟨hreturned, hcall'⟩ := returned_of_keep hi hcall hkeep
    exact ⟨hreturned, hcall', fun ticket task' htaken =>
      (hkept.run hkeep).exists_other hcall' htaken⟩

/-- Whatever calls the owner of a pool makes, and whatever others submit and wait for in between:

Between two calls of the owner the pool runs with all its workers, at least one, or it is stopped and
has neither workers nor tasks.

A call goes on as long as the tasks do. One of the ways in which it can go, if the actions of the
tasks can be done, is that of the pool that nobody else uses. When it has returned, the pool runs,
unless it was to be stopped, and has the size asked for. If the call stopped the pool first, all tasks
accepted before have ended. If it had nothing to do, all that has happened are the moves of the
others.

A task is accepted only while the pool runs. A refusal changes nothing but the call that is refused,
and every task that is ever taken is that of another call. -/
theorem lifecycle {size capacity : Nat} {shared : σ} {moves : List (Move σ)}
    (hrun : run moves (create size capacity shared) = some o) :
    (o.todo = [] → o.monitor.pool.Up ∨ o.monitor.pool.Down) ∧
    (o.todo ≠ [] → o.monitor.pool.Unblocked → (∃ p, o.step .owner = some p) ∨
      ∃ move p, Monitor.Move.isOwn move = true ∧ o.step (.thread move) = some p) ∧
    (o.todo = [] → o.monitor.quiet = true → o.monitor.pool.Able → ∀ call, ∃ later p,
      (∀ move ∈ later, Move.Within move) ∧ run (.call call :: later) o = some p ∧ p.todo = [] ∧
        p.monitor.pool = call.settled o.monitor.pool) ∧
    ∃ l : Monitor.Log σ, keep moves (create size capacity shared)
        (.fresh (.create size capacity shared)) = some (o, l) ∧
      (∀ call later p l', keep (.call call :: later) o l = some (p, l') →
        (∀ move ∈ later, Move.Within move) →
          (p.todo = [] →
            (p.monitor.pool.running = true ↔ call ≠ .stop) ∧
            (∀ n, call = .resize n → p.monitor.pool.size = max n 1) ∧
            ((∀ n, call ≠ .resize n) → p.monitor.pool.size = o.monitor.pool.size) ∧
            (call ≠ .start → l.accepted <+: l'.taken ∧
              ∀ ticket < l.accepted.length, ticket ∈ l'.returned)) ∧
          ((call = .start ∧ o.monitor.pool.running = true) ∨
            (call = .stop ∧ o.monitor.pool.running = false) →
              Monitor.keep (later.filterMap Move.thread?) o.monitor l = some (p.monitor, l'))) ∧
      ∀ i p, o.step (.thread (.submitter i)) = some p →
        (p.monitor.submitters[i]? = some .signalling → o.monitor.pool.running = true) ∧
        (p.monitor.submitters[i]? = some (.returned false) →
          o.monitor.pool.running = false ∧
          p = { o with
            monitor := { o.monitor with
              submitters := o.monitor.submitters.set i (.returned false) } } ∧
          record (.thread (.submitter i)) o l = l ∧
          ∃ task, o.monitor.submitters[i]? = some (.checking task) ∧
            ∀ later q l', keep later p l = some (q, l') →
              q.monitor.submitters[i]? = some (.returned false) ∧
              l'.calls[i]? = some ⟨task, none⟩ ∧
              ∀ (ticket : Nat) task', l'.taken[ticket]? = some task' →
                ∃ j : Nat, j ≠ i ∧ l'.calls[j]? = some ⟨task', some ticket⟩) := by
  obtain ⟨l, hkeep⟩ := exists_log (.fresh (.create size capacity shared)) hrun
  have hkept := (kept_create size capacity shared).run hkeep
  refine ⟨hkept.orderly.between, fun htodo htasks => hkept.orderly.lively htasks htodo,
    hkept.orderly.exists_settled, l, hkeep,
    fun call later p l' hcall hwithin => ⟨fun htodo => ?_, fun hidle => ?_⟩,
    fun i p hstep => ⟨fun hi => ?_, hkept.refused hstep⟩⟩
  · obtain ⟨hrunning, hsize, hended⟩ := hkept.call hwithin hcall htodo
    rw [hrunning, hsize]
    refine ⟨runningAfter_parts call _, fun n hn => ?_, sizeAfter_parts _,
      fun hstop => hended (stop_mem_parts hstop)⟩
    rw [hn]
    rfl
  · exact keep_of_idle_call hidle hwithin hcall
  · cases turn_of_step hstep with
    | thread hothers hcall hmonitor => exact Monitor.running_of_signalling hmonitor hi

/-- Two workers, of which one leaves while the other still does the only task. The pool is given the
size zero, which comes to one, and is stopped after that; then a task is refused. -/
theorem lifecycle_resized_then_stopped :
    let early : List (Move Unit) := [.thread (.call ⟨[], some (.failed "page missing" [])⟩),
      .thread (.submitter 0), .thread (.signalWork 0 none)]
    let resizing : List (Move Unit) := [.owner, .thread (.worker 0), .thread .closer,
      .thread (.signalRoom 0 none), .thread (.worker 1), .thread .closer, .thread (.finish 0),
      .thread (.announce 0), .thread (.worker 0), .thread .closer, .owner, .owner, .owner]
    let stopping : List (Move Unit) := [.call .stop, .owner, .thread (.worker 0), .thread .closer,
      .thread .closer, .thread .closer, .owner, .thread (.call ⟨[], none⟩)]
    ∃ o p q r, run early (create 2 1 ()) = some o ∧ o.todo = [] ∧
      o.monitor.pool.workers.length = o.monitor.pool.size ∧
      (∃ later s, run (.call .cycle :: later) o = some s ∧ s.monitor.pool = o.monitor.pool.cycle) ∧
      run (.call (.resize 0) :: resizing) o = some p ∧ p.monitor.pool.size = 1 ∧
      (∃ l l', keep early (create 2 1 ()) (.fresh (.create 2 1 ())) = some (o, l) ∧
        keep (.call (.resize 0) :: resizing) o l = some (p, l') ∧ 0 ∈ l'.returned) ∧
      run stopping p = some q ∧ q.monitor.pool.workers = [] ∧ q.monitor.pool.queue = [] ∧
      q.step (.thread (.submitter 1)) = some r ∧ r.monitor.pool = q.monitor.pool := by
  intro early resizing stopping
  obtain ⟨o, hearly, ⟨hopen, hrunning, hquiet, hqueue, hidle⟩, p, hresizing, hreturned, q,
      hstopping, hall, ⟨hclosed, hstopped⟩, r, hstep, hrefused⟩ :
      ∃ o, run early (create 2 1 ()) = some o ∧ (o.todo = [] ∧ o.monitor.pool.running = true ∧
          o.monitor.quiet = true ∧ o.monitor.pool.queue = [⟨[], some (.failed "page missing" [])⟩] ∧
          o.monitor.pool.workers = [.idle, .idle]) ∧
        ∃ p, run (.call (.resize 0) :: resizing) o = some p ∧ p.todo = [] ∧
          ∃ q, run stopping p = some q ∧
            run (early ++ .call (.resize 0) :: (resizing ++ stopping)) (create 2 1 ()) = some q ∧
            (q.todo = [] ∧ q.monitor.pool.running = false) ∧
            ∃ r, q.step (.thread (.submitter 1)) = some r ∧
              r.monitor.submitters[1]? = some (.returned false) := by
    -- Evaluation is slow under local names.
    simp only [early, resizing, stopping]
    exact ⟨_, rfl, ⟨rfl, rfl, rfl, rfl, rfl⟩, _, rfl, rfl, _, rfl, rfl, ⟨rfl, rfl⟩, _, rfl, rfl⟩
  obtain ⟨hbetween, -, hsettled, l, hkeep, hcalls, -⟩ := lifecycle hearly
  obtain ⟨hended, -, -, _, -, -, hrefusals⟩ := lifecycle hall
  obtain ⟨l', hkeep'⟩ := exists_log l hresizing
  obtain ⟨hreturn, -⟩ := hcalls (.resize 0) resizing p l' hkeep' (by simp [resizing, Move.Within])
  obtain ⟨-, hsize, -, htasks⟩ := hreturn hreturned
  have haccepted : (keep early (create 2 1 ()) (.fresh (.create 2 1 ()))).map
      (fun s => s.2.accepted.length) = some 1 := by
    simp only [early]
    rfl
  rw [hkeep, Option.map_some, Option.some.injEq] at haccepted
  have hone : l.accepted.length = 1 := haccepted
  have hback : 0 ∈ l'.returned := (htasks (by simp)).2 0 (by omega)
  have hdown := (hended hclosed).resolve_left fun hup =>
    absurd (hup.running.symm.trans hstopped) (by decide)
  obtain ⟨-, hsame, -⟩ := (hrefusals 1 r hstep).2 hrefused
  have hable : o.monitor.pool.Able := by
    constructor
    · simp [hqueue]
    · simp [hidle]
  obtain ⟨later, s, -, hcycling, -, hcycled⟩ := hsettled hopen hquiet hable .cycle
  refine ⟨o, p, q, r, hearly, hopen, ?_, ⟨later, s, hcycling, hcycled⟩, hresizing, hsize 0 rfl,
    ⟨l, l', hkeep, hkeep', hback⟩, hstopping, hdown.workers, hdown.queue, hstep, by rw [hsame]⟩
  rcases hbetween hopen with hup | hdown
  · exact hup.staffed
  · exact absurd (hrunning.symm.trans hdown.stopped) (by decide)

end Owned

end PointTiles
