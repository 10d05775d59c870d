import MiniRedis.Threadpool.CondVar

namespace MiniRedis.Threadpool

open MiniRedis.Data

/-! The pool cannot lose a wakeup, cannot get stuck, and comes to rest. -/

variable {τ : Type} {numThreads : Nat} {pool : Pool τ} {log : PoolLog τ} {i : Nat}
  {state state' : Pool τ × PoolLog τ} {old : WorkerAt τ}

theorem workerNext_isSome (hat : pool.workers[i]? = some old)
    (hasleep : old ≠ .asleep) (hexited : old ≠ .exited)
    (hfree : old = .lock → pool.locked = false) :
    ∃ state, PoolMove (pool, log) state := by
  have hsome : ∃ state, pool.workerNext log i = some state := by
    unfold Pool.workerNext
    rw [hat]
    cases old with
    | lock =>
        rw [hfree rfl]
        exact ⟨_, rfl⟩
    | predicate =>
        dsimp only
        split <;> exact ⟨_, rfl⟩
    | woke =>
        dsimp only
        split <;> exact ⟨_, rfl⟩
    | asleep => exact absurd rfl hasleep
    | exited => exact absurd rfl hexited
    | unlock | task | leave => exact ⟨_, rfl⟩
  obtain ⟨state, hstate⟩ := hsome
  exact ⟨state, .worker i hstate⟩

theorem TurnInv.holder_moves (h : TurnInv pool) (hlocked : pool.locked = true) :
    ∃ state, PoolMove (pool, log) state := by
  have hexclusion := h.exclusion
  rw [hlocked, Bool.toNat_true] at hexclusion
  by_cases howner : pool.owner.holds = 0
  · obtain ⟨worker, hmem, hpos⟩ := exists_of_total_pos
      (show 0 < total WorkerAt.holds pool.workers by omega)
    obtain ⟨i, hat⟩ := List.mem_iff_getElem?.mp hmem
    refine workerNext_isSome hat ?_ ?_ ?_ <;> rintro rfl <;> cases hpos
  · have hsome : ∃ state, pool.ownerNext log = some state := by
      unfold Pool.ownerNext
      cases hat : pool.owner with
      | queuePush | queueUnlock | stopSet | stopUnlock => exact ⟨_, rfl⟩
      | _ =>
          rw [hat] at howner
          exact absurd rfl howner
    obtain ⟨state, hstate⟩ := hsome
    exact ⟨state, .owner hstate⟩

theorem TurnInv.join_moves (h : TurnInv pool) (hfree : pool.locked = false)
    (hat : pool.owner = .join i) : ∃ state, PoolMove (pool, log) state := by
  cases hworker : pool.workers[i]? with
  | none =>
      have hnext : pool.ownerNext log =
          some ({ pool with owner := .destroyed }, log) := by
        simp [Pool.ownerNext, hat, hworker]
      exact ⟨_, .owner hnext⟩
  | some worker =>
      by_cases hexited : worker = .exited
      · have hnext : pool.ownerNext log =
            some ({ pool with owner := .join (i + 1) }, log) := by
          simp [Pool.ownerNext, hat, hworker, hexited]
        exact ⟨_, .owner hnext⟩
      · refine workerNext_isSome hworker ?_ hexited fun _ => hfree
        rintro rfl
        have hsleeps := weight_le_total WorkerAt.sleeps hworker
        rw [h.released (by rw [hat]; rfl)] at hsleeps
        cases hsleeps

/-- The pool rests with the workers asleep, or gone after the destructor. -/
inductive AtRest (pool : Pool τ) : Prop
  | idle (owner : pool.owner = .outside)
      (asleep : ∀ worker ∈ pool.workers, worker = .asleep)
  | gone (owner : pool.owner = .destroyed)
      (exited : ∀ worker ∈ pool.workers, worker = .exited)

theorem TurnInv.idle_or_moves (h : TurnInv pool) (hpool : PoolInv pool.abs log)
    (hfree : pool.locked = false) (hat : pool.owner = .outside) :
    AtRest pool ∨ ∃ state, PoolMove (pool, log) state := by
  by_cases hasleep : ∀ worker ∈ pool.workers, worker = .asleep
  · exact .inl (.idle hat hasleep)
  · simp only [not_forall] at hasleep
    obtain ⟨worker, hmem, hawake⟩ := hasleep
    obtain ⟨i, hworker⟩ := List.mem_iff_getElem?.mp hmem
    refine .inr (workerNext_isSome hworker hawake ?_ fun _ => hfree)
    rintro rfl
    have hstop : pool.stop = true := (hpool.drained (List.mem_map_of_mem hmem)).2
    rw [h.stopped, hat] at hstop
    cases hstop

theorem TurnInv.rests_or_moves (h : TurnInv pool) (hpool : PoolInv pool.abs log) :
    AtRest pool ∨ ∃ state, PoolMove (pool, log) state := by
  cases hfree : pool.locked with
  | true => exact .inr (h.holder_moves hfree)
  | false =>
      have howner : ∀ state, pool.ownerNext log = some state →
          ∃ state, PoolMove (pool, log) state := fun state hnext =>
        ⟨state, .owner hnext⟩
      cases hat : pool.owner with
      | outside => exact h.idle_or_moves hpool hfree hat
      | destroyed =>
          refine .inl (.gone hat ?_)
          intro worker hmem
          obtain ⟨i, hworker⟩ := List.mem_iff_getElem?.mp hmem
          exact h.joined i worker (by rw [hat]; trivial) hworker
      | queueNotify =>
          by_cases hasleep : .asleep ∈ pool.workers
          · obtain ⟨i, hworker⟩ := List.mem_iff_getElem?.mp hasleep
            exact .inr ⟨_, .notifyOne i hat hworker⟩
          · exact .inr ⟨_, .notifyNobody hat hasleep⟩
      | join i => exact .inr (h.join_moves hfree hat)
      | queueLock | queuePush | queueUnlock | stopLock | stopSet | stopUnlock |
        stopNotify =>
          unfold Pool.ownerNext at howner
          rw [hat, hfree] at howner
          exact .inr (howner _ rfl)

theorem AtRest.done (hrest : AtRest pool) (h : TurnInv pool)
    (hpool : PoolInv pool.abs log) :
    pool.queue = [] ∧ log.finished.Perm log.queued := by
  have hworkers : pool.workers ≠ [] := by
    intro hnil
    exact hpool.staffed (by rw [Pool.abs, hnil]; rfl)
  have hempty : pool.queue = [] ∧ pool.abs.running = [] := by
    cases hrest with
    | gone owner exited =>
        refine hpool.joined (List.all_eq_true.mpr ?_)
        intro thread hthread
        obtain ⟨worker, hmem, rfl⟩ := List.mem_map.mp hthread
        rw [exited worker hmem]
        rfl
    | idle owner asleep =>
        have hawake := h.awake
        have hzero : total WorkerAt.coming pool.workers = 0 := by
          by_contra hne
          obtain ⟨worker, hmem, hpos⟩ := exists_of_total_pos (Nat.pos_of_ne_zero hne)
          rw [asleep worker hmem] at hpos
          cases hpos
        obtain ⟨worker, hmem⟩ := List.exists_mem_of_ne_nil _ hworkers
        obtain ⟨i, hworker⟩ := List.mem_iff_getElem?.mp hmem
        have hsleeps := weight_le_total WorkerAt.sleeps hworker
        rw [asleep worker hmem] at hsleeps
        simp only [WorkerAt.sleeps, owner, OwnerAt.notifies] at hsleeps hawake
        refine ⟨List.eq_nil_of_length_eq_zero (by omega), ?_⟩
        rw [ThreadPool.running, List.filterMap_eq_nil_iff]
        intro thread hthread
        obtain ⟨worker, hmem, rfl⟩ := List.mem_map.mp hthread
        rw [asleep worker hmem]
        rfl
  refine ⟨hempty.1, ?_⟩
  have horder := hpool.order
  have hran := hpool.ran
  change log.taken ++ pool.queue = log.queued at horder
  rw [hempty.1, List.append_nil] at horder
  rw [hempty.2, List.nil_append, horder] at hran
  exact hran.symm

/-! A bound on the statements that are left, with a weight for the waiters. -/

def WorkerAt.work (nap : Nat) : WorkerAt τ → Nat
  | .lock => 4
  | .predicate => 3
  | .asleep => nap
  | .woke => 2
  | .unlock _ => 6
  | .task _ => 5
  | .leave => 1
  | .exited => 0

def OwnerAt.work (n : Nat) : OwnerAt τ → Nat
  | .outside => 0
  | .queueLock _ => 13
  | .queuePush _ => 12
  | .queueUnlock => 6
  | .queueNotify => 5
  | .stopLock => 6 * n + 5
  | .stopSet => 6 * n + 4
  | .stopUnlock => 6 * n + 3
  | .stopNotify => 6 * n + 2
  | .join i => n - i + 1
  | .destroyed => 0

def Pool.work (nap : Nat) (pool : Pool τ) : Nat :=
  5 * pool.queue.length + total (WorkerAt.work nap) pool.workers +
    pool.owner.work pool.workers.length

variable {nap : Nat}

/-- No worker goes to sleep once the pool is stopped; before, sleeping has to
weigh nothing. -/
theorem WorkerMove.work_lt (hmove : WorkerMove pool log i old state)
    (hat : pool.workers[i]? = some old) (hnap : nap = 0 ∨ pool.stop = true) :
    state.1.work nap < pool.work nap := by
  have hset := fun new => total_set (WorkerAt.work nap) new hat
  cases hmove with
  | lock free =>
      have hwork := hset .predicate
      simp only [Pool.work, Pool.go, WorkerAt.work, List.length_set] at hwork ⊢
      omega
  | wake go =>
      have hwork := hset .woke
      simp only [Pool.work, Pool.go, WorkerAt.work, List.length_set] at hwork ⊢
      omega
  | sleep empty open_ =>
      have hwork := hset .asleep
      have hzero := hnap.resolve_right (by simp [open_])
      simp only [Pool.work, Pool.go, WorkerAt.work, List.length_set] at hwork ⊢
      omega
  | leave empty =>
      have hwork := hset .leave
      simp only [Pool.work, Pool.go, WorkerAt.work, List.length_set] at hwork ⊢
      omega
  | @take w queue front =>
      have hwork := hset (.unlock w)
      simp only [Pool.work, Pool.go, WorkerAt.work, List.length_set, front,
        List.length_cons] at hwork ⊢
      omega
  | unlock w =>
      have hwork := hset (.task w)
      simp only [Pool.work, Pool.go, WorkerAt.work, List.length_set] at hwork ⊢
      omega
  | finish w =>
      have hwork := hset .lock
      simp only [Pool.work, Pool.go, WorkerAt.work, List.length_set] at hwork ⊢
      omega
  | exit =>
      have hwork := hset .exited
      simp only [Pool.work, Pool.go, WorkerAt.work, List.length_set] at hwork ⊢
      omega

theorem total_work_notified (nap : Nat) (workers : List (WorkerAt τ)) :
    total (WorkerAt.work nap) (workers.map WorkerAt.notified) ≤
      total (WorkerAt.work nap) workers + 4 * workers.length := by
  induction workers with
  | nil => exact Nat.le_refl 0
  | cons worker workers ih =>
      have hone : worker.notified.work nap ≤ worker.work nap + 4 := by
        cases worker <;> simp [WorkerAt.notified, WorkerAt.work]
      simp only [total, List.map_cons, List.length_cons]
      omega

theorem OwnerMove.work_lt (hmove : OwnerMove pool log pool.owner state) :
    state.1.work nap < pool.work nap := by
  generalize hat : pool.owner = at_ at hmove
  have hnotified := total_work_notified nap pool.workers
  cases hmove with
  | join i exited =>
      obtain ⟨hi, -⟩ := List.getElem?_eq_some_iff.mp exited
      simp only [Pool.work, hat, OwnerAt.work]
      omega
  | queueLock | queuePush | queueUnlock | stopLock | stopSet | stopUnlock |
    stopNotify | joined =>
      simp only [Pool.work, hat, OwnerAt.work, List.length_append,
        List.length_singleton, List.length_map]
      omega

theorem PoolMove.work_lt (hmove : PoolMove state state')
    (hnap : nap = 0 ∨ state.1.stop = true) :
    state'.1.work nap < state.1.work nap := by
  cases hmove with
  | worker i result =>
      obtain ⟨old, hat, hmove⟩ := workerNext_cases result
      exact hmove.work_lt hat hnap
  | owner result => exact (ownerNext_cases result).work_lt
  | @notifyOne pool log i at_ asleep =>
      have hwork := total_set (WorkerAt.work nap) .lock asleep
      simp only [Pool.work, Pool.go, WorkerAt.work, at_, OwnerAt.work] at hwork ⊢
      omega
  | notifyNobody at_ none =>
      simp only [Pool.work, at_, OwnerAt.work]
      omega

/-- After the destructor's section also the wakeups by themselves run out. -/
theorem PoolTurn.stopped (hturn : PoolTurn state state') (h : TurnInv state.1)
    (hstop : state.1.stop = true) :
    state'.1.stop = true ∧ state'.1.work 5 < state.1.work 5 := by
  cases hturn with
  | move hmove =>
      refine ⟨?_, hmove.work_lt (.inr hstop)⟩
      cases hmove with
      | worker i result =>
          obtain ⟨old, hat, hmove⟩ := workerNext_cases result
          cases hmove <;> exact hstop
      | @owner pool log _ result =>
          have hmove := ownerNext_cases result
          generalize pool.owner = at_ at hmove
          cases hmove <;> first | exact hstop | rfl
      | notifyOne | notifyNobody => exact hstop
  | @spurious pool log i asleep =>
      have hwork := total_set (WorkerAt.work 5) .lock asleep
      refine ⟨hstop, ?_⟩
      simp only [Pool.work, Pool.go, WorkerAt.work, List.length_set] at hwork ⊢
      omega
  | queue w at_ | destroy at_ =>
      rw [h.stopped, at_] at hstop
      cases hstop

def sleeper : Pool Nat where
  queue := [7]
  locked := true
  workers := [.asleep]
  owner := .queueUnlock

theorem sleeper_reachable : TurnReachable 1 sleeper ⟨[7], [], []⟩ := by
  have hlocked : TurnReachable 1 (⟨[], false, true, [.predicate], .outside⟩ : Pool Nat)
      {} := .tail .refl (.move (.worker 0 rfl))
  have hasleep : TurnReachable 1 (⟨[], false, false, [.asleep], .outside⟩ : Pool Nat)
      {} := hlocked.tail (.move (.worker 0 rfl))
  have hcalled := hasleep.tail (.queue 7 rfl)
  have hheld := hcalled.tail (.move (.owner rfl))
  exact hheld.tail (.move (.owner rfl))

/-- At most one thread is in a section of the mutex. While a worker sleeps, every
queued task has a worker that is coming for it, or its notification is still to
be sent. The pool stands still only when every task has run. -/
theorem pool_loses_no_wakeup (hreach : TurnReachable numThreads pool log) :
    total WorkerAt.holds pool.workers + pool.owner.holds ≤ 1 ∧
    (.asleep ∈ pool.workers → pool.queue.length ≤
      total WorkerAt.coming pool.workers + pool.owner.notifies) ∧
    PoolReachable numThreads pool.abs log ∧
    ((∀ state, ¬ PoolMove (pool, log) state) →
      AtRest pool ∧ pool.queue = [] ∧ log.finished.Perm log.queued) := by
  obtain ⟨h, hpool⟩ := hreach.sections
  refine ⟨?_, ?_, hpool, ?_⟩
  · rw [h.exclusion]
    exact Bool.toNat_le _
  · intro hasleep
    obtain ⟨i, hat⟩ := List.mem_iff_getElem?.mp hasleep
    have hsleeps := weight_le_total WorkerAt.sleeps hat
    refine h.awake.resolve_left fun hzero => ?_
    rw [hzero] at hsleeps
    cases hsleeps
  · intro hstuck
    rcases h.rests_or_moves hpool.inv with hrest | ⟨state, hmove⟩
    · exact ⟨hrest, hrest.done h hpool.inv⟩
    · exact absurd hmove (hstuck state)

theorem pool_loses_no_wakeup_sleeper : .asleep ∈ sleeper.workers ∧
    sleeper.queue.length ≤
      total WorkerAt.coming sleeper.workers + sleeper.owner.notifies :=
  ⟨.head _, (pool_loses_no_wakeup sleeper_reachable).2.1 (.head _)⟩

/-- If the owner makes no more calls, the calls it is in return and every queued
task is run, in whatever order the threads take their turns. -/
theorem pool_comes_to_rest (hreach : TurnReachable numThreads pool log) :
    Inevitable PoolMove (fun state => AtRest state.1 ∧ state.1.queue = [] ∧
      state.2.finished.Perm state.2.queued) (pool, log) := by
  have hstep : ∀ state state' : Pool τ × PoolLog τ,
      TurnReachable numThreads state.1 state.2 → PoolMove state state' →
      TurnReachable numThreads state'.1 state'.2 ∧
        state'.1.work 0 < state.1.work 0 := by
    intro state state' hinv hmove
    exact ⟨hinv.tail (.move hmove), hmove.work_lt (.inl rfl)⟩
  refine Inevitable.of_measure (fun state => state.1.work 0) hstep ?_ hreach
  intro state hinv
  obtain ⟨h, hpool⟩ := TurnReachable.sections hinv
  exact (h.rests_or_moves hpool.inv).imp_left fun hrest =>
    ⟨hrest, hrest.done h hpool.inv⟩

theorem pool_comes_to_rest_sleeper : Inevitable PoolMove
    (fun state => AtRest state.1 ∧ state.1.queue = [] ∧
      state.2.finished.Perm state.2.queued) (sleeper, ⟨[7], [], []⟩) :=
  pool_comes_to_rest sleeper_reachable

/-- The destructor returns once it has set `stop_`: with all workers gone and
every queued task run, also under spurious wakeups. -/
theorem destructor_joins (hreach : TurnReachable numThreads pool log)
    (hstop : pool.stop = true) :
    Inevitable PoolTurn (fun state => state.1.owner = .destroyed ∧
      (∀ worker ∈ state.1.workers, worker = .exited) ∧
      state.2.finished.Perm state.2.queued) (pool, log) := by
  have hstep : ∀ state state' : Pool τ × PoolLog τ,
      TurnReachable numThreads state.1 state.2 ∧ state.1.stop = true →
      PoolTurn state state' →
      (TurnReachable numThreads state'.1 state'.2 ∧ state'.1.stop = true) ∧
        state'.1.work 5 < state.1.work 5 := by
    intro state state' hinv hturn
    obtain ⟨hstop', hless⟩ := hturn.stopped hinv.1.sections.1 hinv.2
    exact ⟨⟨hinv.1.tail hturn, hstop'⟩, hless⟩
  refine Inevitable.of_measure (fun state => state.1.work 5) hstep ?_
    (show TurnReachable numThreads pool log ∧ pool.stop = true from ⟨hreach, hstop⟩)
  intro state hinv
  obtain ⟨h, hpool⟩ := TurnReachable.sections hinv.1
  rcases h.rests_or_moves hpool.inv with hrest | ⟨state', hmove⟩
  · have hdone := hrest.done h hpool.inv
    cases hrest with
    | idle owner asleep =>
        have hstopped := h.stopped
        rw [hinv.2, owner] at hstopped
        cases hstopped
    | gone owner exited => exact .inl ⟨owner, exited, hdone.2⟩
  · exact .inr ⟨state', .move hmove⟩

theorem destructor_joins_sleeper : ∃ (pool : Pool Nat) (log : PoolLog Nat),
    pool.stop = true ∧ pool.workers = [.lock] ∧ log.finished = [] ∧
      Inevitable PoolTurn (fun state => state.1.owner = .destroyed ∧
        (∀ worker ∈ state.1.workers, worker = .exited) ∧
        state.2.finished.Perm state.2.queued) (pool, log) := by
  have hpushed := sleeper_reachable.tail (.move (.owner rfl))
  have hnotified := hpushed.tail (.move (.notifyOne 0 rfl rfl))
  have hcalled := hnotified.tail (.destroy rfl)
  have hheld := hcalled.tail (.move (.owner rfl))
  have hstopped := hheld.tail (.move (.owner rfl))
  exact ⟨_, _, rfl, rfl, rfl, destructor_joins hstopped rfl⟩

end MiniRedis.Threadpool
