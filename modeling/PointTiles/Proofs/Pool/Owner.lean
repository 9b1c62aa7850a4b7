import PointTiles.Pool.Lifecycle
import PointTiles.Proofs.Pool.Progress
import PointTiles.Proofs.Pool.Settling

/-! # What the owner of a pool does to it

* `Owned.Turn`, `turn_of_step`: one case for each outcome of a move of the owner or of the others.
* `Change.kept`: the others neither start nor stop the pool, and do not change its size.
* `Owned.Orderly`, `Orderly.step`: where the pool stands at each part of the owner's call.
* `Orderly.between`: between two calls the pool runs with all its workers, or it is stopped and empty.
* `Owned.aim`, `aim_of_step`: what a call is to leave, which no move changes.
* `Orderly.lively`: as long as the tasks go on, the owner's call does.
-/

namespace PointTiles
set_option autoImplicit false

variable {σ : Type}

/-! ## Moves of the others -/

namespace Monitor

variable {m n : Monitor σ} {move : Move σ}

theorem Move.isOwners_event {event : Pool.Event σ} (h : move.event m = some event) :
    event.isOwners = move.isOwners := by
  cases move with
  | submitter i =>
    simp only [Move.event] at h
    split at h
    · obtain ⟨-, hevent⟩ := Option.ite_none_right_eq_some.1 h
      cases hevent
      rfl
    · cases h
  | worker w =>
    simp only [Move.event] at h
    split at h
    · cases h
      rfl
    · obtain ⟨-, hevent⟩ := Option.ite_none_left_eq_some.1 h
      cases hevent
      rfl
  | clearErrors | halt | start | resize | act | finish =>
    cases h
    rfl
  | _ => cases h

/-- The others neither start nor stop the pool, nor do they change its size. -/
theorem Change.kept (hothers : move.isOwners = false) (h : Change m move n) :
    n.pool.running = m.pool.running ∧ n.pool.size = m.pool.size ∧
      (m.closer = .absent → n.closer = .absent) := by
  have hpool : n.pool.running = m.pool.running ∧ n.pool.size = m.pool.size := by
    rcases h.pool with ⟨event, hevent, hstep⟩ | ⟨-, hsame⟩
    · exact Pool.step_kept ((Move.isOwners_event hevent).trans hothers) hstep
    · rw [hsame]
      exact ⟨rfl, rfl⟩
  refine ⟨hpool.1, hpool.2, fun habsent => ?_⟩
  cases h with
  | halted | started | resized => cases hothers
  | wokeWorkers hcloser | wokeSubmitters hcloser | joined hcloser =>
    cases habsent.symm.trans hcloser
  | _ => exact habsent

/-- A stopped pool that its workers have left is empty. -/
theorem Sane.down (hm : Sane m) (hstopped : m.pool.running = false) (habsent : m.closer = .absent) :
    m.pool.Down := by
  cases hm.stage with
  | opened hrunning => exact absurd (hrunning.symm.trans hstopped) (by decide)
  | closing _ hcloser => exact absurd habsent hcloser
  | closed _ _ hworkers => exact hm.sound.down hm.tended hstopped hworkers

end Monitor

/-! ## Turns -/

namespace Owned

variable {o p : Owned σ} {move : Move σ}

/-- The outcomes of a move. -/
inductive Turn (o : Owned σ) : Move σ → Owned σ → Prop where
  | called {call : Call} (htodo : o.todo = []) (hquiet : o.monitor.quiet = true) :
      Turn o (.call call) { o with todo := call.parts }
  | halted {todo : List Part} {monitor : Monitor σ} (htodo : o.todo = .stop :: todo)
      (hmonitor : o.monitor.step .halt = some monitor) : Turn o .owner { o with monitor }
  | stopped {todo : List Part} (htodo : o.todo = .stop :: todo)
      (hstopped : o.monitor.pool.running = false) (habsent : o.monitor.closer = .absent) :
      Turn o .owner { o with todo }
  | sized {size : Nat} {todo : List Part} {monitor : Monitor σ}
      (htodo : o.todo = .setSize size :: todo)
      (hmonitor : o.monitor.step (.resize size) = some monitor) : Turn o .owner ⟨monitor, todo⟩
  | stayed {todo : List Part} (htodo : o.todo = .start :: todo)
      (hrunning : o.monitor.pool.running = true) : Turn o .owner { o with todo }
  | started {todo : List Part} {monitor : Monitor σ} (htodo : o.todo = .start :: todo)
      (hmonitor : o.monitor.step .start = some monitor) : Turn o .owner ⟨monitor, todo⟩
  | thread {move : Monitor.Move σ} {monitor : Monitor σ} (hothers : move.isOwners = false)
      (hcall : o.todo ≠ [] → move.isCall = false) (hmonitor : o.monitor.step move = some monitor) :
      Turn o (.thread move) { o with monitor }

theorem turn_of_step (h : o.step move = some p) : Turn o move p := by
  cases move with
  | call call =>
    obtain ⟨⟨htodo, hquiet⟩, hp⟩ := Option.ite_none_right_eq_some.1 h
    cases hp
    exact .called htodo hquiet
  | owner =>
    simp only [step, ownerStep] at h
    split at h
    next => cases h
    next todo htodo =>
      split at h
      · obtain ⟨monitor, hmonitor, rfl⟩ := Option.map_eq_some_iff.1 h
        exact .halted htodo hmonitor
      next hstopped =>
        obtain ⟨habsent, hp⟩ := Option.ite_none_right_eq_some.1 h
        cases hp
        exact .stopped htodo (by simpa using hstopped) habsent
    next size todo htodo =>
      obtain ⟨monitor, hmonitor, rfl⟩ := Option.map_eq_some_iff.1 h
      exact .sized htodo hmonitor
    next todo htodo =>
      split at h
      next hrunning =>
        cases h
        exact .stayed htodo hrunning
      · obtain ⟨monitor, hmonitor, rfl⟩ := Option.map_eq_some_iff.1 h
        exact .started htodo hmonitor
  | thread move =>
    obtain ⟨hallowed, hp⟩ := Option.ite_none_left_eq_some.1 h
    obtain ⟨monitor, hmonitor, rfl⟩ := Option.map_eq_some_iff.1 hp
    rw [not_or] at hallowed
    refine .thread (by simpa using hallowed.1) (fun htodo => ?_) hmonitor
    simpa [htodo] using hallowed.2

theorem step_halt {m n : Monitor σ} (h : m.step .halt = some n) :
    m.pool.running = true ∧ n.pool = { m.pool with running := false } ∧
      n.closer = .wakingWorkers := by
  cases Monitor.change_of_step h with
  | halted _ hpool =>
    obtain ⟨hrunning, hhalted⟩ := Pool.step_halt.1 hpool
    exact ⟨hrunning, hhalted, rfl⟩

theorem step_resize {m n : Monitor σ} {size : Nat} (h : m.step (.resize size) = some n) :
    m.pool.running = false ∧ n.pool = { m.pool with size := max size 1 } ∧ n.closer = .absent := by
  cases Monitor.change_of_step h with
  | resized hquiet hpool =>
    obtain ⟨⟨hstopped, -⟩, hresized⟩ := Pool.step_resize.1 hpool
    exact ⟨hstopped, hresized, (Monitor.quiet_iff.1 hquiet).1⟩

theorem step_start {m n : Monitor σ} (h : m.step .start = some n) :
    m.pool.running = false ∧
      n.pool = { m.pool with
        running := true
        workers := List.replicate m.pool.size .idle } ∧ n.closer = .absent := by
  cases Monitor.change_of_step h with
  | started hquiet hpool =>
    obtain ⟨⟨hstopped, -⟩, hstarted⟩ := Pool.step_start.1 hpool
    exact ⟨hstopped, hstarted, (Monitor.quiet_iff.1 hquiet).1⟩

/-! ## Where the pool stands -/

/-- The pool is ready for what the owner has to do next. -/
structure Orderly (o : Owned σ) : Prop where
  sane : o.monitor.Sane
  course : ∃ call : Call, o.todo <:+ call.parts
  joined : (∀ todo, o.todo ≠ .stop :: todo) → o.monitor.closer = .absent
  sizing : ∀ size todo, o.todo = .setSize size :: todo → o.monitor.pool.running = false
  returned : o.todo ≠ [] → o.monitor.AllReturned

theorem orderly_create (size capacity : Nat) (shared : σ) : Orderly (create size capacity shared) where
  sane := Monitor.sane_create size capacity shared
  course := ⟨.stop, List.nil_suffix⟩
  joined _ := rfl
  sizing := nofun
  returned htodo := absurd rfl htodo

/-- A call ends when it has started the pool. -/
theorem Orderly.todo_eq_nil (h : Orderly o) {todo : List Part} (htodo : o.todo = .start :: todo) :
    todo = [] := by
  obtain ⟨call, hsuffix⟩ := h.course
  rw [htodo] at hsuffix
  cases call <;> simp [Call.parts, List.suffix_cons_iff] at hsuffix <;> exact hsuffix

theorem Orderly.step (h : Orderly o) (hstep : o.step move = some p) : Orderly p := by
  obtain ⟨call, hsuffix⟩ := h.course
  cases turn_of_step hstep with
  | @called call htodo hquiet =>
    obtain ⟨habsent, hreturned⟩ := Monitor.quiet_iff.1 hquiet
    refine ⟨h.sane, ⟨call, List.suffix_refl _⟩, fun _ => habsent, fun size todo hsizing => ?_,
      fun _ => hreturned⟩
    cases call <;> cases hsizing
  | halted htodo hmonitor =>
    have hreturned := h.returned (by simp [htodo])
    refine ⟨h.sane.step hmonitor, ⟨call, hsuffix⟩, fun hnot => absurd htodo (hnot _), ?_,
      fun _ => hreturned.step rfl (Monitor.change_of_step hmonitor)⟩
    simp [htodo]
  | stopped htodo hstopped habsent =>
    rw [htodo] at hsuffix
    exact ⟨h.sane, ⟨call, (List.suffix_cons _ _).trans hsuffix⟩, fun _ => habsent,
      fun _ _ _ => hstopped, fun _ => h.returned (by simp [htodo])⟩
  | sized htodo hmonitor =>
    have hreturned := h.returned (by simp [htodo])
    obtain ⟨hstopped, hpool, habsent⟩ := step_resize hmonitor
    rw [htodo] at hsuffix
    exact ⟨h.sane.step hmonitor, ⟨call, (List.suffix_cons _ _).trans hsuffix⟩, fun _ => habsent,
      fun _ _ _ => by rw [hpool]; exact hstopped,
      fun _ => hreturned.step rfl (Monitor.change_of_step hmonitor)⟩
  | stayed htodo hrunning =>
    obtain rfl := h.todo_eq_nil htodo
    exact ⟨h.sane, ⟨call, List.nil_suffix⟩, fun _ => h.joined (by simp [htodo]), nofun,
      fun hne => absurd rfl hne⟩
  | started htodo hmonitor =>
    obtain rfl := h.todo_eq_nil htodo
    obtain ⟨-, -, habsent⟩ := step_start hmonitor
    exact ⟨h.sane.step hmonitor, ⟨call, List.nil_suffix⟩, fun _ => habsent, nofun,
      fun hne => absurd rfl hne⟩
  | thread hothers hcall hmonitor =>
    have hchange := Monitor.change_of_step hmonitor
    obtain ⟨hrunning, -, habsent⟩ := hchange.kept hothers
    exact ⟨h.sane.step hmonitor, ⟨call, hsuffix⟩, fun hnot => habsent (h.joined hnot),
      fun size todo htodo => hrunning.trans (h.sizing size todo htodo),
      fun hne => (h.returned hne).step (hcall hne) hchange⟩

/-- Between two calls of the owner the pool runs with all its workers, or it is stopped and empty. -/
theorem Orderly.between (h : Orderly o) (htodo : o.todo = []) :
    o.monitor.pool.Up ∨ o.monitor.pool.Down := by
  have habsent := h.joined (by simp [htodo])
  cases hrunning : o.monitor.pool.running with
  | true => exact .inl (h.sane.sound.up hrunning)
  | false => exact .inr (h.sane.down hrunning habsent)

/-! ## What a call is to leave -/

/-- Whether the pool is to run when these parts are done. -/
def runningAfter : List Part → Bool → Bool
  | [], running => running
  | .stop :: parts, _ => runningAfter parts false
  | .setSize _ :: parts, running => runningAfter parts running
  | .start :: parts, _ => runningAfter parts true

/-- The size the pool is to have when these parts are done. -/
def sizeAfter : List Part → Nat → Nat
  | [], size => size
  | .setSize size :: parts, _ => sizeAfter parts (max size 1)
  | _ :: parts, size => sizeAfter parts size

theorem runningAfter_parts (call : Call) (running : Bool) :
    runningAfter call.parts running = true ↔ call ≠ .stop := by
  cases call <;> simp [Call.parts, runningAfter]

theorem sizeAfter_parts {call : Call} (size : Nat) (hcall : ∀ n, call ≠ .resize n) :
    sizeAfter call.parts size = size := by
  cases call with
  | resize n => exact absurd rfl (hcall n)
  | _ => rfl

theorem stop_mem_parts {call : Call} (hcall : call ≠ .start) : .stop ∈ call.parts := by
  cases call with
  | start => exact absurd rfl hcall
  | _ => exact List.mem_cons_self

/-- The move is no call of the owner. -/
def Move.Within (move : Move σ) : Prop := ∀ call, move ≠ .call call

def aim (o : Owned σ) : Bool × Nat :=
  (runningAfter o.todo o.monitor.pool.running, sizeAfter o.todo o.monitor.pool.size)

/-- During a call, nothing changes what it is to leave. -/
theorem aim_of_step (hwithin : move.Within) (hstep : o.step move = some p) :
    p.aim = o.aim := by
  cases turn_of_step hstep with
  | called => exact absurd rfl (hwithin _)
  | halted htodo hmonitor =>
    obtain ⟨-, hpool, -⟩ := step_halt hmonitor
    simp only [aim, htodo, runningAfter, sizeAfter, hpool]
  | stopped htodo hstopped habsent => simp only [aim, htodo, runningAfter, sizeAfter, hstopped]
  | sized htodo hmonitor =>
    obtain ⟨-, hpool, -⟩ := step_resize hmonitor
    simp only [aim, htodo, runningAfter, sizeAfter, hpool]
  | stayed htodo hrunning => simp only [aim, htodo, runningAfter, sizeAfter, hrunning]
  | started htodo hmonitor =>
    obtain ⟨-, hpool, -⟩ := step_start hmonitor
    simp only [aim, htodo, runningAfter, sizeAfter, hpool]
  | thread hothers hcall hmonitor =>
    obtain ⟨hrunning, hsize, -⟩ := (Monitor.change_of_step hmonitor).kept hothers
    simp only [aim, hrunning, hsize]

/-! ## Calls go on -/

theorem exists_halt {m : Monitor σ} (hquiet : m.quiet = true) (hrunning : m.pool.running = true) :
    ∃ n, m.step .halt = some n := by
  have hpool := Pool.step_halt.2 ⟨hrunning, rfl⟩
  exact ⟨_, by rw [Monitor.step, if_pos hquiet, hpool]; rfl⟩

theorem exists_resize {m : Monitor σ} (size : Nat) (hquiet : m.quiet = true)
    (hstopped : m.pool.running = false) (hworkers : m.pool.workers = []) :
    ∃ n, m.step (.resize size) = some n := by
  have hpool : m.pool.step (.resize size) = some _ :=
    Pool.step_resize.2 ⟨⟨hstopped, hworkers⟩, rfl⟩
  exact ⟨_, by rw [Monitor.step, if_pos hquiet, hpool]; rfl⟩

theorem exists_start {m : Monitor σ} (hquiet : m.quiet = true) (hstopped : m.pool.running = false)
    (hworkers : m.pool.workers = []) : ∃ n, m.step .start = some n := by
  have hpool := Pool.step_start.2 ⟨⟨hstopped, hworkers⟩, rfl⟩
  exact ⟨_, by rw [Monitor.step, if_pos hquiet, hpool]; rfl⟩

theorem step_thread_of_isOwn {move : Monitor.Move σ} {monitor : Monitor σ} (hown : move.isOwn = true)
    (h : o.monitor.step move = some monitor) : o.step (.thread move) = some { o with monitor } := by
  have hplain : move.isOwners = false ∧ move.isCall = false := by
    cases move with
    | call | await | clearErrors | halt | start | resize | strayWakeSubmitter | strayWakeWorker
    | strayWakeWaiter => cases hown
    | _ => exact ⟨rfl, rfl⟩
  simp [step, hplain.1, hplain.2, h]

/-- While a call of the owner is under way, the owner can go on with it or a thread can move, if the
tasks being done can go on. -/
theorem Orderly.lively (h : Orderly o) (htasks : o.monitor.pool.Unblocked) (htodo : o.todo ≠ []) :
    (∃ p, o.step .owner = some p) ∨
      ∃ move p, Monitor.Move.isOwn move = true ∧ o.step (.thread move) = some p := by
  have hreturned := h.returned htodo
  cases hparts : o.todo with
  | nil => exact absurd hparts htodo
  | cons part todo =>
    by_cases hpart : part = .stop
    · subst hpart
      cases hrunning : o.monitor.pool.running with
      | true =>
        have habsent : o.monitor.closer = .absent := by
          cases h.sane.stage with
          | opened _ hcloser => exact hcloser
          | closing hstopped | closed hstopped =>
            exact absurd (hrunning.symm.trans hstopped) (by decide)
        obtain ⟨n, hn⟩ := exists_halt (Monitor.quiet_iff.2 ⟨habsent, hreturned⟩) hrunning
        exact .inl ⟨{ o with monitor := n }, by simp [Owned.step, ownerStep, hparts, hrunning, hn]⟩
      | false =>
        by_cases habsent : o.monitor.closer = .absent
        · exact .inl ⟨{ o with todo }, by simp [Owned.step, ownerStep, hparts, hrunning, habsent]⟩
        · obtain ⟨move, next, hown, hnext⟩ :=
            h.sane.lively htasks (.inr (.inr (.inr habsent)))
          exact .inr ⟨move, _, hown, step_thread_of_isOwn hown hnext⟩
    · have habsent := h.joined (by simp [hparts, hpart])
      have hquiet := Monitor.quiet_iff.2 ⟨habsent, hreturned⟩
      cases part with
      | stop => exact absurd rfl hpart
      | setSize size =>
        have hstopped := h.sizing size todo hparts
        obtain ⟨n, hn⟩ := exists_resize size hquiet hstopped (h.sane.down hstopped habsent).workers
        exact .inl ⟨⟨n, todo⟩, by simp [Owned.step, ownerStep, hparts, hn]⟩
      | start =>
        cases hrunning : o.monitor.pool.running with
        | true => exact .inl ⟨{ o with todo }, by simp [Owned.step, ownerStep, hparts, hrunning]⟩
        | false =>
          obtain ⟨n, hn⟩ := exists_start hquiet hrunning (h.sane.down hrunning habsent).workers
          exact .inl ⟨⟨n, todo⟩, by simp [Owned.step, ownerStep, hparts, hrunning, hn]⟩

end Owned

end PointTiles
