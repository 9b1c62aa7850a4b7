import PointTiles.Proofs.Pool.Owner
import Mathlib.Logic.Relation

/-! # Calls on a pool that nobody else uses

`Pool.start`, `stop`, `cycle` and `resize` let the workers go on in one order and do without hands and
signals. Each is one way in which the owner's call can go.

* `Monitor.Goes`, `Monitor.exists_goes_of_step`: the hands follow any move of the pool's workers, after
  a signal that is still to be given.
* `Owned.Proceeds`, `Orderly.exists_stopped` and its like: a part of the owner's call comes to where
  the part on the pool alone comes to.
* `Call.settled`, `exists_settled`: so does the whole call.
-/

namespace PointTiles
set_option autoImplicit false

variable {σ : Type}

/-! ## Hands that follow -/

namespace Monitor

variable {m n : Monitor σ}

/-- A thread under way makes a move. -/
def Goes (m n : Monitor σ) : Prop := ∃ move, Move.isOwn move = true ∧ m.step move = some n

theorem Sane.goes (hm : Sane m) (h : Relation.ReflTransGen Goes m n) : Sane n := by
  induction h with
  | refl => exact hm
  | tail _ hlast ih =>
    obtain ⟨move, -, hstep⟩ := hlast
    exact ih.step hstep

/-- While the closer waits, an idle worker comes to look at the queue. -/
theorem Sane.exists_checking {w : Nat} (hm : Sane m) (hjoining : m.closer = .joining)
    (hidle : m.pool.workers[w]? = some .idle) :
    ∃ n, Relation.ReflTransGen Goes m n ∧ n.pool = m.pool ∧ n.closer = .joining ∧
      n.hands[w]? = some .checking := by
  obtain ⟨before, after, hand, before', after', -, hhands, rfl, hlen, -, hstands, -⟩ :=
    Places.forall₂_split hm.crewed.flip hidle
  have hplace : m.hands[before.length]? = some hand := by rw [hhands, ← hlen, Places.getElem?_split]
  cases hstands with
  | checking => exact ⟨m, .refl, rfl, hjoining, hplace⟩
  | asleep =>
    have hstopped : m.pool.running = false := by
      cases hm.stage with
      | opened _ habsent => cases habsent.symm.trans hjoining
      | closing hstopped | closed hstopped => exact hstopped
    obtain ⟨hwaking, -⟩ := hm.wakingWorkers_of_asleep (by simp [hhands]) hstopped
    cases hwaking.symm.trans hjoining
  | announcing =>
    have hstep : m.step (.announce before.length) = some
        { m with
          waiters := m.waiters.map Waiter.wake
          hands := m.hands.set before.length .checking } := by
      simp only [Monitor.step, hplace]
    refine ⟨_, .single ⟨_, rfl, hstep⟩, rfl, hjoining, ?_⟩
    simp only [hhands, ← hlen, Places.set_split, Places.getElem?_split]

/-- A busy worker comes to go on with its task. -/
theorem Sane.exists_working {w : Nat} {task : Pool.Task σ} {rest : List (σ → Option σ)}
    (hm : Sane m) (hbusy : m.pool.workers[w]? = some (.busy task rest)) :
    ∃ n, Relation.ReflTransGen Goes m n ∧ n.pool = m.pool ∧ n.closer = m.closer ∧
      n.hands[w]? = some .working := by
  obtain ⟨before, after, hand, before', after', -, hhands, rfl, hlen, -, hstands, -⟩ :=
    Places.forall₂_split hm.crewed.flip hbusy
  have hplace : m.hands[before.length]? = some hand := by rw [hhands, ← hlen, Places.getElem?_split]
  cases hstands with
  | working => exact ⟨m, .refl, rfl, rfl, hplace⟩
  | signalling =>
    obtain ⟨woken, submitters, hwake⟩ :=
      exists_wakeOne Submitter.isAsleep Submitter.wake m.submitters
    have hstep : m.step (.signalRoom before.length woken) = some
        { m with submitters, hands := m.hands.set before.length .working } := by
      simp only [Monitor.step, hplace, hwake, Option.map_some]
    refine ⟨_, .single ⟨_, rfl, hstep⟩, rfl, rfl, ?_⟩
    simp only [hhands, ← hlen, Places.set_split, Places.getElem?_split]

/-- The hands follow any move of the workers. -/
theorem Sane.exists_goes_of_step {event : Pool.Event σ} {pool : Pool σ} (hm : Sane m)
    (hjoining : m.closer = .joining) (hmove : event.isMove = true)
    (hstep : m.pool.step event = some pool) :
    ∃ n, Relation.ReflTransGen Goes m n ∧ n.pool = pool ∧ n.closer = .joining := by
  cases event with
  | take w =>
    obtain ⟨task, queue, hidle, -⟩ := Pool.step_take.1 hstep
    obtain ⟨n, hgoes, hpool, hcloser, hhand⟩ := hm.exists_checking hjoining hidle
    have hlast : n.step (.worker w) = some { n with pool, hands := n.hands.set w .signalling } := by
      simp only [Monitor.step, hhand, checkWorker, hpool, hstep]
    exact ⟨_, hgoes.tail ⟨_, rfl, hlast⟩, rfl, hcloser⟩
  | leave w =>
    obtain ⟨hidle, hstopped, hqueue, -⟩ := Pool.step_leave.1 hstep
    obtain ⟨n, hgoes, hpool, hcloser, hhand⟩ := hm.exists_checking hjoining hidle
    have hlast : n.step (.worker w) = some { n with pool, hands := n.hands.eraseIdx w } := by
      simp [Monitor.step, hhand, checkWorker, hpool, Pool.step_take_eq_none hqueue, hstopped, hstep]
    exact ⟨_, hgoes.tail ⟨_, rfl, hlast⟩, rfl, hcloser⟩
  | act w =>
    obtain ⟨task, action, rest, shared, hbusy, -⟩ := Pool.step_act.1 hstep
    obtain ⟨n, hgoes, hpool, hcloser, hhand⟩ := hm.exists_working hbusy
    have hlast : n.step (.act w) = some { n with pool } := by
      simp only [Monitor.step, hhand, hpool, hstep, Option.map_some]
    exact ⟨_, hgoes.tail ⟨_, rfl, hlast⟩, rfl, hcloser.trans hjoining⟩
  | finish w =>
    obtain ⟨task, hbusy, -⟩ := Pool.step_finish.1 hstep
    obtain ⟨n, hgoes, hpool, hcloser, hhand⟩ := hm.exists_working hbusy
    have hlast : n.step (.finish w) = some
        { n with pool, hands := n.hands.set w (if pool.isIdle then .announcing else .checking) } := by
      simp only [Monitor.step, hhand, hpool, hstep, Option.map_some]
    exact ⟨_, hgoes.tail ⟨_, rfl, hlast⟩, rfl, hcloser.trans hjoining⟩
  | _ => cases hmove

theorem Sane.exists_advance (hm : Sane m) (hjoining : m.closer = .joining) (moves : Nat) :
    ∃ n, Relation.ReflTransGen Goes m n ∧ n.pool = m.pool.advance moves ∧ n.closer = .joining := by
  induction moves generalizing m with
  | zero => exact ⟨m, .refl, rfl, hjoining⟩
  | succ moves ih =>
    rw [Pool.advance]
    cases hnext : m.pool.advance? with
    | none => exact ⟨m, .refl, rfl, hjoining⟩
    | some pool =>
      obtain ⟨event, hmove, hstep⟩ := Pool.exists_step_of_advance? hnext
      obtain ⟨next, hfirst, rfl, hjoining'⟩ := hm.exists_goes_of_step hjoining hmove hstep
      obtain ⟨n, hrest, hpool, hcloser⟩ := ih (hm.goes hfirst) hjoining'
      exact ⟨n, hfirst.trans hrest, hpool, hcloser⟩

/-- A halted pool whose tasks can all be done comes to be closed. -/
theorem Sane.exists_closed (hm : Sane m) (hhalted : m.closer = .wakingWorkers)
    (hstopped : m.pool.running = false) (hable : m.pool.Able) :
    ∃ n, Relation.ReflTransGen Goes m n ∧ n.pool = m.pool.settle ∧ n.pool.Down ∧
      n.closer = .absent := by
  let woken : Monitor σ := { m with hands := m.hands.map Hand.wake, closer := .wakingSubmitters }
  let joining : Monitor σ :=
    { woken with submitters := woken.submitters.map Submitter.wake, closer := .joining }
  have hwoken : Goes m woken := ⟨.closer, rfl, by simp only [Monitor.step, hhalted, woken]⟩
  have hjoining : Goes woken joining := ⟨.closer, rfl, rfl⟩
  have hearly : Relation.ReflTransGen Goes m joining := .head hwoken (.single hjoining)
  obtain ⟨n, hgoes, hpool, hcloser⟩ := (hm.goes hearly).exists_advance rfl m.pool.weight
  have hdown : n.pool.Down := hpool ▸ Pool.down_settle hm.sound hm.tended hable hstopped
  have hclosed : Goes n { n with closer := .absent } :=
    ⟨.closer, rfl, by simp [Monitor.step, hcloser, hdown.workers]⟩
  exact ⟨_, (hearly.trans hgoes).tail hclosed, hpool, hdown, rfl⟩

end Monitor

/-! ## Parts of a call -/

namespace Owned

variable {o p : Owned σ} {todo : List Part}

/-- The owner goes on with its call, or a thread moves. -/
def Proceeds (o p : Owned σ) : Prop := ∃ move : Move σ, move.Within ∧ o.step move = some p

theorem proceeds_owner (h : o.step .owner = some p) : Proceeds o p :=
  ⟨.owner, nofun, h⟩

theorem proceeds_of_goes {n : Monitor σ} (h : Relation.ReflTransGen Monitor.Goes o.monitor n) :
    Relation.ReflTransGen Proceeds o { o with monitor := n } := by
  refine h.lift (fun monitor => { o with monitor }) ?_
  rintro m n ⟨move, hown, hstep⟩
  exact ⟨.thread move, nofun, step_thread_of_isOwn (o := ⟨m, o.todo⟩) hown hstep⟩

theorem exists_run (h : Relation.ReflTransGen Proceeds o p) :
    ∃ later : List (Move σ), (∀ move ∈ later, Move.Within move) ∧ run later o = some p := by
  induction h using Relation.ReflTransGen.head_induction_on with
  | refl => exact ⟨[], List.forall_mem_nil _, rfl⟩
  | head hfirst _ ih =>
    obtain ⟨move, hwithin, hstep⟩ := hfirst
    obtain ⟨later, hlater, hrun⟩ := ih
    exact ⟨move :: later, List.forall_mem_cons.2 ⟨hwithin, hlater⟩, by
      rw [run, hstep, Option.bind_some, hrun]⟩

theorem Orderly.proceeds (h : Orderly o) (hp : Relation.ReflTransGen Proceeds o p) : Orderly p := by
  induction hp with
  | refl => exact h
  | tail _ hlast ih =>
    obtain ⟨move, -, hstep⟩ := hlast
    exact ih.step hstep

theorem Orderly.exists_stopped (h : Orderly o) (htodo : o.todo = .stop :: todo)
    (habsent : o.monitor.closer = .absent) (hable : o.monitor.pool.Able) :
    ∃ p, Relation.ReflTransGen Proceeds o p ∧ p.todo = todo ∧
      p.monitor.pool = o.monitor.pool.stop := by
  cases hrunning : o.monitor.pool.running with
  | false =>
    have hstep : o.step .owner = some { o with todo } := by
      simp [Owned.step, ownerStep, htodo, hrunning, habsent]
    exact ⟨_, .single (proceeds_owner hstep), rfl, (Pool.stop_of_stopped hrunning).symm⟩
  | true =>
    have hquiet := Monitor.quiet_iff.2 ⟨habsent, h.returned (by simp [htodo])⟩
    obtain ⟨halted, hhalt⟩ := exists_halt hquiet hrunning
    obtain ⟨-, hpool, hcloser⟩ := step_halt hhalt
    have hfirst : o.step .owner = some { o with monitor := halted } := by
      simp [Owned.step, ownerStep, htodo, hrunning, hhalt]
    obtain ⟨closed, hgoes, hsettled, hdown, habsent'⟩ := (h.sane.step hhalt).exists_closed hcloser
      (by rw [hpool]) (by rw [hpool]; exact ⟨hable.queue, hable.workers⟩)
    have hlast : Owned.step .owner { o with monitor := closed } = some ⟨closed, todo⟩ := by
      simp [Owned.step, ownerStep, htodo, hdown.stopped, habsent']
    refine ⟨⟨closed, todo⟩, ?_, rfl, ?_⟩
    · exact .head (proceeds_owner hfirst)
        ((proceeds_of_goes (o := { o with monitor := halted }) hgoes).tail (proceeds_owner hlast))
    · rw [hsettled, hpool, Pool.stop, Pool.step_halt.2 ⟨hrunning, rfl⟩]

theorem Orderly.exists_sized {size : Nat} (h : Orderly o) (htodo : o.todo = .setSize size :: todo) :
    ∃ p, Relation.ReflTransGen Proceeds o p ∧ p.todo = todo ∧
      p.monitor.pool = (o.monitor.pool.step (.resize size)).getD o.monitor.pool := by
  have habsent := h.joined (by simp [htodo])
  have hstopped := h.sizing size todo htodo
  have hworkers := (h.sane.down hstopped habsent).workers
  have hquiet := Monitor.quiet_iff.2 ⟨habsent, h.returned (by simp [htodo])⟩
  obtain ⟨sized, hresize⟩ := exists_resize size hquiet hstopped hworkers
  obtain ⟨-, hpool, -⟩ := step_resize hresize
  have hstep : o.step .owner = some ⟨sized, todo⟩ := by
    simp [Owned.step, ownerStep, htodo, hresize]
  refine ⟨_, .single (proceeds_owner hstep), rfl, ?_⟩
  rw [Pool.step_resize.2 ⟨⟨hstopped, hworkers⟩, rfl⟩, Option.getD_some, hpool]

theorem Orderly.exists_started (h : Orderly o) (htodo : o.todo = .start :: todo) :
    ∃ p, Relation.ReflTransGen Proceeds o p ∧ p.todo = todo ∧
      p.monitor.pool = o.monitor.pool.start := by
  have habsent := h.joined (by simp [htodo])
  cases hrunning : o.monitor.pool.running with
  | true =>
    have hstep : o.step .owner = some { o with todo } := by
      simp [Owned.step, ownerStep, htodo, hrunning]
    exact ⟨_, .single (proceeds_owner hstep), rfl, (Pool.start_of_running hrunning).symm⟩
  | false =>
    have hworkers := (h.sane.down hrunning habsent).workers
    have hquiet := Monitor.quiet_iff.2 ⟨habsent, h.returned (by simp [htodo])⟩
    obtain ⟨started, hstart⟩ := exists_start hquiet hrunning hworkers
    obtain ⟨-, hpool, -⟩ := step_start hstart
    have hstep : o.step .owner = some ⟨started, todo⟩ := by
      simp [Owned.step, ownerStep, htodo, hrunning, hstart]
    refine ⟨_, .single (proceeds_owner hstep), rfl, ?_⟩
    rw [Pool.start, Pool.step_start.2 ⟨⟨hrunning, hworkers⟩, rfl⟩, Option.getD_some, hpool]

/-! ## Calls -/

/-- What a call leaves of a pool that nobody else uses. -/
def Call.settled : Call → Pool σ → Pool σ
  | .start => Pool.start
  | .stop => Pool.stop
  | .cycle => Pool.cycle
  | .resize size => Pool.resize size

theorem Orderly.exists_proceeds {call : Call} (h : Orderly o) (htodo : o.todo = call.parts)
    (habsent : o.monitor.closer = .absent) (hable : o.monitor.pool.Able) :
    ∃ p, Relation.ReflTransGen Proceeds o p ∧ p.todo = [] ∧
      p.monitor.pool = call.settled o.monitor.pool := by
  cases call with
  | start => exact h.exists_started htodo
  | stop => exact h.exists_stopped htodo habsent hable
  | cycle =>
    obtain ⟨q, hq, htodo', hstopped⟩ := h.exists_stopped htodo habsent hable
    obtain ⟨p, hp, hdone, hstarted⟩ := (h.proceeds hq).exists_started htodo'
    exact ⟨p, hq.trans hp, hdone, by rw [hstarted, hstopped]; rfl⟩
  | resize size =>
    obtain ⟨q, hq, htodo', hstopped⟩ := h.exists_stopped htodo habsent hable
    obtain ⟨r, hr, htodo'', hsized⟩ := (h.proceeds hq).exists_sized htodo'
    obtain ⟨p, hp, hdone, hstarted⟩ := ((h.proceeds hq).proceeds hr).exists_started htodo''
    exact ⟨p, (hq.trans hr).trans hp, hdone, by rw [hstarted, hsized, hstopped]; rfl⟩

/-- A call can go as it goes on a pool that nobody else uses. -/
theorem Orderly.exists_settled (h : Orderly o) (htodo : o.todo = [])
    (hquiet : o.monitor.quiet = true) (hable : o.monitor.pool.Able) (call : Call) :
    ∃ later p, (∀ move ∈ later, Move.Within move) ∧ run (.call call :: later) o = some p ∧
      p.todo = [] ∧ p.monitor.pool = call.settled o.monitor.pool := by
  have hbegin : o.step (.call call) = some { o with todo := call.parts } := by
    simp [Owned.step, htodo, hquiet]
  obtain ⟨p, hp, hdone, hpool⟩ := (h.step hbegin).exists_proceeds rfl
    (Monitor.quiet_iff.1 hquiet).1 hable
  obtain ⟨later, hlater, hrun⟩ := exists_run hp
  exact ⟨later, p, hlater, by rw [run, hbegin, Option.bind_some, hrun], hdone, hpool⟩

end Owned

end PointTiles
