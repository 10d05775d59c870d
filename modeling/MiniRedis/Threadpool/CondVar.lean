import MiniRedis.Data.Threads
import MiniRedis.Threadpool.ThreadPool

namespace MiniRedis.Threadpool

open MiniRedis.Data

variable {τ : Type}

/-! The pool statement by statement, with its mutex and its condition variable:
a waiter sleeps until it is notified or wakes by itself, and a notification that
finds no waiter is lost. -/

/-- Where a worker is in `worker_loop`. -/
inductive WorkerAt (τ : Type)
  -- the construction of `lock`, or the mutex again in `wait`
  | lock
  | predicate
  | asleep
  -- after `wait`
  | woke
  | unlock (w : τ)
  | task (w : τ)
  | leave
  | exited

/-- Where the thread that owns the pool is in `queue` and in the destructor. -/
inductive OwnerAt (τ : Type)
  | outside
  | queueLock (w : τ)
  | queuePush (w : τ)
  | queueUnlock
  | queueNotify
  | stopLock
  | stopSet
  | stopUnlock
  | stopNotify
  | join (i : Nat)
  | destroyed

structure Pool (τ : Type) where
  queue : List τ := []
  stop : Bool := false
  locked : Bool := false
  workers : List (WorkerAt τ)
  owner : OwnerAt τ := .outside

namespace WorkerAt

def holds : WorkerAt τ → Nat
  | .predicate | .woke | .unlock _ | .leave => 1
  | _ => 0

/-- The worker will look at the queue before it sleeps. -/
def coming : WorkerAt τ → Nat
  | .lock | .predicate | .woke => 1
  | _ => 0

def sleeps : WorkerAt τ → Nat
  | .asleep => 1
  | _ => 0

def ready : WorkerAt τ → Nat
  | .woke => 1
  | _ => 0

def notified : WorkerAt τ → WorkerAt τ
  | .asleep => .lock
  | worker => worker

def abs : WorkerAt τ → Worker τ
  | .lock | .predicate | .asleep | .woke => .waiting
  | .unlock w | .task w => .running w
  | .leave | .exited => .exited

end WorkerAt

namespace OwnerAt

def holds : OwnerAt τ → Nat
  | .queuePush _ | .queueUnlock | .stopSet | .stopUnlock => 1
  | _ => 0

def notifies : OwnerAt τ → Nat
  | .queueUnlock | .queueNotify => 1
  | _ => 0

def stopped : OwnerAt τ → Bool
  | .stopUnlock | .stopNotify | .join _ | .destroyed => true
  | _ => false

def released : OwnerAt τ → Bool
  | .join _ | .destroyed => true
  | _ => false

def joined : OwnerAt τ → Nat → Prop
  | .join i, j => j < i
  | .destroyed, _ => True
  | _, _ => False

end OwnerAt

namespace Pool

def create (numThreads : Nat) : Pool τ where
  workers := List.replicate (if numThreads = 0 then 1 else numThreads) .lock

def go (pool : Pool τ) (i : Nat) (next : WorkerAt τ) : Pool τ :=
  { pool with workers := pool.workers.set i next }

def workerNext (pool : Pool τ) (log : PoolLog τ) (i : Nat) :
    Option (Pool τ × PoolLog τ) :=
  match pool.workers[i]? with
  | some .lock =>
      if pool.locked then none
      else some ({ pool.go i .predicate with locked := true }, log)
  | some .predicate =>
      if !pool.queue.isEmpty || pool.stop then
        some (pool.go i .woke, log)
      else
        some ({ pool.go i .asleep with locked := false }, log)
  | some .woke =>
      match pool.queue with
      | [] => some (pool.go i .leave, log)
      | w :: queue =>
          some ({ pool.go i (.unlock w) with queue := queue },
            { log with taken := log.taken ++ [w] })
  | some (.unlock w) => some ({ pool.go i (.task w) with locked := false }, log)
  | some (.task w) =>
      some (pool.go i .lock, { log with finished := log.finished ++ [w] })
  | some .leave => some ({ pool.go i .exited with locked := false }, log)
  | some .asleep | some .exited | none => none

def ownerNext (pool : Pool τ) (log : PoolLog τ) : Option (Pool τ × PoolLog τ) :=
  match pool.owner with
  | .queueLock w =>
      if pool.locked then none
      else some ({ pool with locked := true, owner := .queuePush w }, log)
  | .queuePush w =>
      some ({ pool with queue := pool.queue ++ [w], owner := .queueUnlock },
        { log with queued := log.queued ++ [w] })
  | .queueUnlock =>
      some ({ pool with locked := false, owner := .queueNotify }, log)
  | .stopLock =>
      if pool.locked then none
      else some ({ pool with locked := true, owner := .stopSet }, log)
  | .stopSet => some ({ pool with stop := true, owner := .stopUnlock }, log)
  | .stopUnlock =>
      some ({ pool with locked := false, owner := .stopNotify }, log)
  | .stopNotify =>
      some ({ pool with
        workers := pool.workers.map WorkerAt.notified
        owner := .join 0 }, log)
  | .join i =>
      match pool.workers[i]? with
      | some .exited => some ({ pool with owner := .join (i + 1) }, log)
      | none => some ({ pool with owner := .destroyed }, log)
      | some _ => none
  | .outside | .queueNotify | .destroyed => none

def abs (pool : Pool τ) : ThreadPool τ where
  queue := pool.queue
  stop := pool.stop
  threads := pool.workers.map WorkerAt.abs

end Pool

inductive PoolMove : Pool τ × PoolLog τ → Pool τ × PoolLog τ → Prop
  | worker {pool : Pool τ} {log : PoolLog τ} {state : Pool τ × PoolLog τ}
      (i : Nat) (result : pool.workerNext log i = some state) :
      PoolMove (pool, log) state
  | owner {pool : Pool τ} {log : PoolLog τ} {state : Pool τ × PoolLog τ}
      (result : pool.ownerNext log = some state) : PoolMove (pool, log) state
  | notifyOne {pool : Pool τ} {log : PoolLog τ} (i : Nat)
      (at_ : pool.owner = .queueNotify)
      (asleep : pool.workers[i]? = some .asleep) :
      PoolMove (pool, log) ({ pool.go i .lock with owner := .outside }, log)
  | notifyNobody {pool : Pool τ} {log : PoolLog τ}
      (at_ : pool.owner = .queueNotify) (none : .asleep ∉ pool.workers) :
      PoolMove (pool, log) ({ pool with owner := .outside }, log)

/-- The steps that the pool takes by itself, the calls of the owner, and spurious
wakeups. -/
inductive PoolTurn : Pool τ × PoolLog τ → Pool τ × PoolLog τ → Prop
  | move {state state' : Pool τ × PoolLog τ} (h : PoolMove state state') :
      PoolTurn state state'
  | spurious {pool : Pool τ} {log : PoolLog τ} (i : Nat)
      (asleep : pool.workers[i]? = some .asleep) :
      PoolTurn (pool, log) (pool.go i .lock, log)
  | queue {pool : Pool τ} {log : PoolLog τ} (w : τ)
      (at_ : pool.owner = .outside) :
      PoolTurn (pool, log) ({ pool with owner := .queueLock w }, log)
  | destroy {pool : Pool τ} {log : PoolLog τ} (at_ : pool.owner = .outside) :
      PoolTurn (pool, log) ({ pool with owner := .stopLock }, log)

def TurnReachable (numThreads : Nat) (pool : Pool τ) (log : PoolLog τ) : Prop :=
  Relation.ReflTransGen PoolTurn (Pool.create numThreads, {}) (pool, log)

/-! What a worker's next statement can do. -/

inductive WorkerMove (pool : Pool τ) (log : PoolLog τ) (i : Nat) :
    WorkerAt τ → Pool τ × PoolLog τ → Prop
  | lock (free : pool.locked = false) :
      WorkerMove pool log i .lock
        ({ pool.go i .predicate with locked := true }, log)
  | wake (go : pool.queue ≠ [] ∨ pool.stop = true) :
      WorkerMove pool log i .predicate (pool.go i .woke, log)
  | sleep (empty : pool.queue = []) (open_ : pool.stop = false) :
      WorkerMove pool log i .predicate
        ({ pool.go i .asleep with locked := false }, log)
  | leave (empty : pool.queue = []) :
      WorkerMove pool log i .woke (pool.go i .leave, log)
  | take {w : τ} {queue : List τ} (front : pool.queue = w :: queue) :
      WorkerMove pool log i .woke
        ({ pool.go i (.unlock w) with queue := queue },
          { log with taken := log.taken ++ [w] })
  | unlock (w : τ) :
      WorkerMove pool log i (.unlock w)
        ({ pool.go i (.task w) with locked := false }, log)
  | finish (w : τ) :
      WorkerMove pool log i (.task w)
        (pool.go i .lock, { log with finished := log.finished ++ [w] })
  | exit :
      WorkerMove pool log i .leave
        ({ pool.go i .exited with locked := false }, log)

inductive OwnerMove (pool : Pool τ) (log : PoolLog τ) :
    OwnerAt τ → Pool τ × PoolLog τ → Prop
  | queueLock (w : τ) (free : pool.locked = false) :
      OwnerMove pool log (.queueLock w)
        ({ pool with locked := true, owner := .queuePush w }, log)
  | queuePush (w : τ) :
      OwnerMove pool log (.queuePush w)
        ({ pool with queue := pool.queue ++ [w], owner := .queueUnlock },
          { log with queued := log.queued ++ [w] })
  | queueUnlock :
      OwnerMove pool log .queueUnlock
        ({ pool with locked := false, owner := .queueNotify }, log)
  | stopLock (free : pool.locked = false) :
      OwnerMove pool log .stopLock
        ({ pool with locked := true, owner := .stopSet }, log)
  | stopSet :
      OwnerMove pool log .stopSet
        ({ pool with stop := true, owner := .stopUnlock }, log)
  | stopUnlock :
      OwnerMove pool log .stopUnlock
        ({ pool with locked := false, owner := .stopNotify }, log)
  | stopNotify :
      OwnerMove pool log .stopNotify
        ({ pool with
          workers := pool.workers.map WorkerAt.notified
          owner := .join 0 }, log)
  | join (i : Nat) (exited : pool.workers[i]? = some .exited) :
      OwnerMove pool log (.join i) ({ pool with owner := .join (i + 1) }, log)
  | joined (i : Nat) (last : pool.workers[i]? = none) :
      OwnerMove pool log (.join i) ({ pool with owner := .destroyed }, log)

section Cases

variable {pool : Pool τ} {log : PoolLog τ} {i : Nat} {state : Pool τ × PoolLog τ}

theorem workerNext_cases (h : pool.workerNext log i = some state) :
    ∃ old, pool.workers[i]? = some old ∧ WorkerMove pool log i old state := by
  unfold Pool.workerNext at h
  split at h
  next hat =>
    obtain ⟨hfree, h⟩ := Option.ite_none_left_eq_some.mp h
    cases h
    exact ⟨_, hat, .lock (by simpa using hfree)⟩
  next hat =>
    split at h
    next hgo =>
      cases h
      refine ⟨_, hat, .wake ?_⟩
      simpa using hgo
    next hstay =>
      cases h
      simp only [Bool.or_eq_true, Bool.not_eq_true', not_or, Bool.not_eq_false,
        Bool.not_eq_true, List.isEmpty_iff] at hstay
      exact ⟨_, hat, .sleep hstay.1 hstay.2⟩
  next hat =>
    split at h
    next hempty =>
      cases h
      exact ⟨_, hat, .leave hempty⟩
    next hfront =>
      cases h
      exact ⟨_, hat, .take hfront⟩
  next hat =>
    cases h
    exact ⟨_, hat, .unlock _⟩
  next hat =>
    cases h
    exact ⟨_, hat, .finish _⟩
  next hat =>
    cases h
    exact ⟨_, hat, .exit⟩
  all_goals cases h

theorem ownerNext_cases (h : pool.ownerNext log = some state) :
    OwnerMove pool log pool.owner state := by
  unfold Pool.ownerNext at h
  split at h
  next w hat =>
    obtain ⟨hfree, h⟩ := Option.ite_none_left_eq_some.mp h
    cases h
    exact hat ▸ .queueLock w (by simpa using hfree)
  next w hat =>
    cases h
    exact hat ▸ .queuePush w
  next hat =>
    cases h
    exact hat ▸ .queueUnlock
  next hat =>
    obtain ⟨hfree, h⟩ := Option.ite_none_left_eq_some.mp h
    cases h
    exact hat ▸ .stopLock (by simpa using hfree)
  next hat =>
    cases h
    exact hat ▸ .stopSet
  next hat =>
    cases h
    exact hat ▸ .stopUnlock
  next hat =>
    cases h
    exact hat ▸ .stopNotify
  next i hat =>
    split at h
    next hexited =>
      cases h
      exact hat ▸ .join i hexited
    next hlast =>
      cases h
      exact hat ▸ .joined i hlast
    next => cases h
  all_goals cases h

end Cases

/-- What holds between any two statements. A sleeping worker means that every
queued task has its worker coming, or a notification. -/
structure TurnInv (pool : Pool τ) : Prop where
  exclusion : total WorkerAt.holds pool.workers + pool.owner.holds =
    pool.locked.toNat
  stopped : pool.stop = pool.owner.stopped
  ready : total WorkerAt.ready pool.workers = 0 ∨ pool.queue ≠ [] ∨
    pool.stop = true
  awake : total WorkerAt.sleeps pool.workers = 0 ∨
    pool.queue.length ≤ total WorkerAt.coming pool.workers + pool.owner.notifies
  released : pool.owner.released = true → total WorkerAt.sleeps pool.workers = 0
  joined : ∀ i worker, pool.owner.joined i → pool.workers[i]? = some worker →
    worker = .exited

theorem ready_le_holds (workers : List (WorkerAt τ)) :
    total WorkerAt.ready workers ≤ total WorkerAt.holds workers :=
  total_le
    (fun worker => by cases worker <;> simp [WorkerAt.ready, WorkerAt.holds]) workers

section Invariant

variable {pool : Pool τ} {log : PoolLog τ} {i : Nat} {state : Pool τ × PoolLog τ}
  {old new : WorkerAt τ}

theorem TurnInv.joined_go (h : TurnInv pool) (hat : pool.workers[i]? = some old)
    (hold : old ≠ .exited) (new : WorkerAt τ) (j : Nat) (worker : WorkerAt τ)
    (hjoined : pool.owner.joined j)
    (hworker : (pool.go i new).workers[j]? = some worker) : worker = .exited := by
  by_cases hij : i = j
  · subst hij
    exact absurd (h.joined i old hjoined hat) hold
  · rw [Pool.go, List.getElem?_set_ne hij] at hworker
    exact h.joined j worker hjoined hworker

theorem TurnInv.go (h : TurnInv pool) (hat : pool.workers[i]? = some old)
    (hold : old ≠ .exited) (queue : List τ) (locked : Bool)
    (hlocked : pool.locked.toNat + new.holds = locked.toNat + old.holds)
    (hready : total WorkerAt.ready pool.workers + new.ready = old.ready ∨
      queue ≠ [] ∨ pool.stop = true)
    (hawake : total WorkerAt.sleeps pool.workers + new.sleeps = old.sleeps ∨
      queue.length + old.coming ≤
        total WorkerAt.coming pool.workers + pool.owner.notifies + new.coming)
    (hreleased : new.sleeps = 0 ∨ pool.stop = false) :
    TurnInv { pool.go i new with queue := queue, locked := locked } := by
  have hholds := total_set WorkerAt.holds new hat
  have hsleeps := total_set WorkerAt.sleeps new hat
  have hcoming := total_set WorkerAt.coming new hat
  have hreadies := total_set WorkerAt.ready new hat
  have hexclusion := h.exclusion
  refine ⟨?_, h.stopped, ?_, ?_, ?_, h.joined_go hat hold new⟩
  · simp only [Pool.go]
    omega
  · refine hready.imp_left fun hzero => ?_
    simp only [Pool.go]
    omega
  · simp only [Pool.go]
    omega
  · intro howner
    have hzero := h.released howner
    have hstop : pool.stop = true := by
      rw [h.stopped]
      change pool.owner.released = true at howner
      revert howner
      cases pool.owner <;> simp [OwnerAt.released, OwnerAt.stopped]
    have hnew := hreleased.resolve_right (by simp [hstop])
    simp only [Pool.go]
    omega

theorem TurnInv.worker (h : TurnInv pool) (hat : pool.workers[i]? = some old)
    (hmove : WorkerMove pool log i old state) : TurnInv state.1 := by
  have hready := h.ready
  have hawake := h.awake
  have hexclusion := h.exclusion
  have hbound := ready_le_holds pool.workers
  have hlocked := Bool.toNat_le pool.locked
  have hmine := weight_le_total WorkerAt.holds hat
  have hcoming := weight_le_total WorkerAt.coming hat
  have hself := weight_le_total WorkerAt.ready hat
  cases hmove with
  | lock free =>
      refine h.go hat (by rintro ⟨⟩) pool.queue true ?_ ?_ ?_ (.inl rfl)
      · rw [free]
        rfl
      · simpa [WorkerAt.ready] using hready
      · simp only [WorkerAt.sleeps, WorkerAt.coming]
        omega
  | wake go =>
      refine h.go hat (by rintro ⟨⟩) pool.queue pool.locked rfl (.inr go) ?_ (.inl rfl)
      simp only [WorkerAt.sleeps, WorkerAt.coming]
      omega
  | sleep empty open_ =>
      simp only [WorkerAt.holds] at hmine
      refine h.go hat (by rintro ⟨⟩) pool.queue false ?_ ?_ ?_ (.inr open_)
      · simp only [WorkerAt.holds, Bool.toNat_false]
        omega
      · simpa [WorkerAt.ready] using hready
      · rw [empty, List.length_nil]
        simp only [WorkerAt.sleeps, WorkerAt.coming] at hcoming ⊢
        omega
  | leave empty =>
      refine h.go hat (by rintro ⟨⟩) pool.queue pool.locked rfl ?_ ?_ (.inl rfl)
      · simp only [WorkerAt.ready] at hself
        exact .inr (hready.resolve_left (by omega))
      · rw [empty, List.length_nil]
        simp only [WorkerAt.sleeps, WorkerAt.coming] at hcoming ⊢
        omega
  | take front =>
      rw [front, List.length_cons] at hawake
      simp only [WorkerAt.ready, WorkerAt.holds] at hself hmine
      refine h.go hat (by rintro ⟨⟩) _ pool.locked rfl (.inl ?_) ?_ (.inl rfl)
      · simp only [WorkerAt.ready]
        omega
      · simp only [WorkerAt.sleeps, WorkerAt.coming]
        omega
  | unlock w =>
      simp only [WorkerAt.holds] at hmine
      refine h.go hat (by rintro ⟨⟩) pool.queue false ?_ ?_ ?_ (.inl rfl)
      · simp only [WorkerAt.holds, Bool.toNat_false]
        omega
      · simpa [WorkerAt.ready] using hready
      · simp only [WorkerAt.sleeps, WorkerAt.coming]
        omega
  | finish w =>
      refine h.go hat (by rintro ⟨⟩) pool.queue pool.locked rfl ?_ ?_ (.inl rfl)
      · simpa [WorkerAt.ready] using hready
      · simp only [WorkerAt.sleeps, WorkerAt.coming]
        omega
  | exit =>
      simp only [WorkerAt.holds] at hmine
      refine h.go hat (by rintro ⟨⟩) pool.queue false ?_ ?_ ?_ (.inl rfl)
      · simp only [WorkerAt.holds, Bool.toNat_false]
        omega
      · simpa [WorkerAt.ready] using hready
      · simp only [WorkerAt.sleeps, WorkerAt.coming]
        omega

theorem total_notified (workers : List (WorkerAt τ)) :
    total WorkerAt.holds (workers.map WorkerAt.notified) =
        total WorkerAt.holds workers ∧
      total WorkerAt.ready (workers.map WorkerAt.notified) =
        total WorkerAt.ready workers ∧
      total WorkerAt.sleeps (workers.map WorkerAt.notified) = 0 := by
  have hzero : total (fun _ : WorkerAt τ => 0) workers = 0 :=
    total_eq_zero fun _ _ => rfl
  refine ⟨?_, ?_, hzero ▸ ?_⟩
  all_goals
    rw [total_map]
    congr 1
    funext worker
    cases worker <;> rfl

theorem TurnInv.owner (h : TurnInv pool)
    (hmove : OwnerMove pool log pool.owner state) : TurnInv state.1 := by
  obtain ⟨hexclusion, hstopped, hready, hawake, hreleased, hjoined⟩ := h
  generalize hat : pool.owner = at_ at hmove
  rw [hat] at hexclusion hstopped hawake hreleased hjoined
  cases hmove with
  | queueLock w free =>
      rw [free] at hexclusion
      exact ⟨congrArg (· + 1) hexclusion, hstopped, hready, hawake, hreleased,
        hjoined⟩
  | queuePush w =>
      refine ⟨hexclusion, hstopped, .inr (.inl (by simp)), ?_, hreleased, hjoined⟩
      rw [List.length_append, List.length_singleton]
      exact hawake.imp_right (Nat.add_le_add_right · 1)
  | queueUnlock =>
      have hheld := Bool.toNat_le pool.locked
      refine ⟨?_, hstopped, hready, hawake, hreleased, hjoined⟩
      simp only [OwnerAt.holds, Bool.toNat_false] at hexclusion ⊢
      omega
  | stopLock free =>
      rw [free] at hexclusion
      exact ⟨congrArg (· + 1) hexclusion, hstopped, hready, hawake, hreleased,
        hjoined⟩
  | stopSet =>
      exact ⟨hexclusion, rfl, .inr (.inr rfl), hawake, hreleased, hjoined⟩
  | stopUnlock =>
      have hheld := Bool.toNat_le pool.locked
      refine ⟨?_, hstopped, hready, hawake, hreleased, hjoined⟩
      simp only [OwnerAt.holds, Bool.toNat_false] at hexclusion ⊢
      omega
  | stopNotify =>
      obtain ⟨hholds, hreadies, hsleeps⟩ := total_notified pool.workers
      refine ⟨?_, hstopped, .inr (.inr hstopped), .inl hsleeps, fun _ => hsleeps, ?_⟩
      · rw [hholds]
        exact hexclusion
      · intro i worker hless
        exact absurd hless (Nat.not_lt_zero i)
  | join i exited =>
      refine ⟨hexclusion, hstopped, hready, hawake, hreleased, ?_⟩
      intro j worker hless hworker
      rcases Nat.lt_succ_iff_lt_or_eq.mp hless with hbefore | rfl
      · exact hjoined j worker hbefore hworker
      · rw [exited] at hworker
        cases hworker
        rfl
  | joined i last =>
      refine ⟨hexclusion, hstopped, hready, hawake, hreleased, ?_⟩
      intro j worker _ hworker
      obtain ⟨hlength, -⟩ := List.getElem?_eq_some_iff.mp hworker
      exact hjoined j worker
        (Nat.lt_of_lt_of_le hlength (List.getElem?_eq_none_iff.mp last)) hworker

theorem TurnInv.spurious (h : TurnInv pool)
    (hat : pool.workers[i]? = some .asleep) : TurnInv (pool.go i .lock) := by
  have hawake := h.awake
  have hsleeps := weight_le_total WorkerAt.sleeps hat
  simp only [WorkerAt.sleeps] at hsleeps
  refine h.go hat (by rintro ⟨⟩) pool.queue pool.locked rfl ?_ ?_ (.inl rfl)
  · simpa [WorkerAt.ready] using h.ready
  · simp only [WorkerAt.sleeps, WorkerAt.coming]
    omega

/-- The notification of a task turns into a worker that is coming for it. -/
theorem TurnInv.notifyOne (h : TurnInv pool) (howner : pool.owner = .queueNotify)
    (hat : pool.workers[i]? = some .asleep) :
    TurnInv { pool.go i .lock with owner := .outside } := by
  have hawake := h.awake
  have hsleeps := weight_le_total WorkerAt.sleeps hat
  have hcoming := total_set WorkerAt.coming .lock hat
  obtain ⟨hexclusion, hstopped, hready, -, -, -⟩ := h.spurious hat
  change _ + pool.owner.holds = _ at hexclusion
  change _ = pool.owner.stopped at hstopped
  rw [howner] at hexclusion hstopped hawake
  refine ⟨hexclusion, hstopped, hready, .inr ?_, by rintro ⟨⟩, by rintro _ _ ⟨⟩⟩
  simp only [WorkerAt.sleeps, WorkerAt.coming, OwnerAt.notifies, Pool.go]
    at hsleeps hcoming hawake ⊢
  omega

theorem total_sleeps_eq_zero {workers : List (WorkerAt τ)}
    (h : .asleep ∉ workers) : total WorkerAt.sleeps workers = 0 := by
  refine total_eq_zero ?_
  intro worker hmem
  cases worker with
  | asleep => exact absurd hmem h
  | _ => rfl

theorem PoolMove.inv {state' : Pool τ × PoolLog τ} (hmove : PoolMove state state')
    (h : TurnInv state.1) : TurnInv state'.1 := by
  cases hmove with
  | worker i result =>
      obtain ⟨old, hat, hmove⟩ := workerNext_cases result
      exact h.worker hat hmove
  | owner result => exact h.owner (ownerNext_cases result)
  | notifyOne i at_ asleep => exact h.notifyOne at_ asleep
  | notifyNobody at_ none =>
      have hexclusion := h.exclusion
      have hstopped := h.stopped
      rw [at_] at hexclusion hstopped
      exact ⟨hexclusion, hstopped, h.ready, .inl (total_sleeps_eq_zero none),
        by rintro ⟨⟩, by rintro _ _ ⟨⟩⟩

theorem TurnInv.call (h : TurnInv pool) (hat : pool.owner = .outside)
    {owner : OwnerAt τ} (hholds : owner.holds = 0) (hstopped : owner.stopped = false)
    (hreleased : owner.released = false) (hjoined : ∀ i, ¬ owner.joined i) :
    TurnInv { pool with owner := owner } := by
  have hexclusion := h.exclusion
  have hstop := h.stopped
  have hawake := h.awake
  rw [hat] at hexclusion hstop hawake
  refine ⟨hholds ▸ hexclusion, hstopped ▸ hstop, h.ready, ?_, ?_, ?_⟩
  · exact hawake.imp_right fun hle => Nat.le_trans hle (Nat.le_add_right _ _)
  · intro hrel
    rw [hreleased] at hrel
    cases hrel
  · intro i worker hjoin
    exact absurd hjoin (hjoined i)

theorem PoolTurn.inv {state' : Pool τ × PoolLog τ} (hturn : PoolTurn state state')
    (h : TurnInv state.1) : TurnInv state'.1 := by
  cases hturn with
  | move hmove => exact hmove.inv h
  | spurious i asleep => exact h.spurious asleep
  | queue w at_ => exact h.call at_ rfl rfl rfl fun _ => id
  | destroy at_ => exact h.call at_ rfl rfl rfl fun _ => id

end Invariant

theorem TurnInv.create (numThreads : Nat) :
    TurnInv (Pool.create numThreads : Pool τ) := by
  have hzero : ∀ (weight : WorkerAt τ → Nat) (n : Nat), weight .lock = 0 →
      total weight (List.replicate n .lock) = 0 := by
    intro weight n hweight
    refine total_eq_zero ?_
    intro worker hmem
    rw [List.eq_of_mem_replicate hmem, hweight]
  exact ⟨hzero _ _ rfl, rfl, .inl (hzero _ _ rfl), .inl (hzero _ _ rfl),
    by rintro ⟨⟩, by rintro _ _ ⟨⟩⟩

/-! The statements between two sections are no steps of the sections' model. -/

section Refinement

variable {pool : Pool τ} {log : PoolLog τ} {i : Nat} {state : Pool τ × PoolLog τ}
  {old new : WorkerAt τ}

theorem abs_go (pool : Pool τ) (i : Nat) (new : WorkerAt τ) :
    (pool.go i new).abs =
      { pool.abs with threads := pool.abs.threads.set i new.abs } := by
  rw [Pool.abs, Pool.go, List.map_set]
  rfl

theorem abs_thread (hat : pool.workers[i]? = some old) :
    pool.abs.threads[i]? = some old.abs := by
  rw [Pool.abs, List.getElem?_map, hat]
  rfl

theorem abs_go_same (hat : pool.workers[i]? = some old) (h : new.abs = old.abs) :
    (pool.go i new).abs = pool.abs := by
  obtain ⟨hi, hold⟩ := List.getElem?_eq_some_iff.mp (abs_thread hat)
  rw [abs_go, h, ← hold, List.set_getElem_self]

theorem stutter (log : PoolLog τ) (new : WorkerAt τ)
    (hat : pool.workers[i]? = some old) (h : new.abs = old.abs) :
    Relation.ReflTransGen PoolStep (pool.abs, log) ((pool.go i new).abs, log) := by
  rw [abs_go_same hat h]

theorem WorkerMove.sections (hmove : WorkerMove pool log i old state)
    (h : TurnInv pool) (hat : pool.workers[i]? = some old) :
    Relation.ReflTransGen PoolStep (pool.abs, log) (state.1.abs, state.2) := by
  have hthread := abs_thread hat
  cases hmove with
  | lock free => exact stutter log .predicate hat rfl
  | wake go => exact stutter log .woke hat rfl
  | sleep empty open_ => exact stutter log .asleep hat rfl
  | unlock w => exact stutter log (.task w) hat rfl
  | exit => exact stutter log .exited hat rfl
  | leave empty =>
      have hself := weight_le_total WorkerAt.ready hat
      simp only [WorkerAt.ready] at hself
      have hstop : pool.stop = true := by
        rcases h.ready with hzero | hqueue | hstop
        · omega
        · exact absurd empty hqueue
        · exact hstop
      have hsection : pool.abs.workerLoopSection i =
          some ((pool.go i .leave).abs, none) := by
        rw [ThreadPool.workerLoopSection, hthread]
        simp [WorkerAt.abs, Pool.abs, empty, hstop, Pool.go, List.map_set]
      have hstep : PoolStep (pool.abs, log) _ := .worker i hsection
      rw [Option.toList_none, List.append_nil] at hstep
      exact .single hstep
  | @take w queue front =>
      have hsection : pool.abs.workerLoopSection i =
          some (({ pool.go i (.unlock w) with queue := queue } : Pool τ).abs,
            some w) := by
        rw [ThreadPool.workerLoopSection, hthread]
        simp [WorkerAt.abs, Pool.abs, front, Pool.go, List.map_set]
      exact .single (.worker i hsection)
  | finish w =>
      have hfinish : pool.abs.finishTask i = some ((pool.go i .lock).abs, w) := by
        rw [ThreadPool.finishTask, hthread, abs_go]
        rfl
      exact .single (.finish i hfinish)

theorem OwnerMove.sections (hmove : OwnerMove pool log pool.owner state)
    (h : TurnInv pool) :
    Relation.ReflTransGen PoolStep (pool.abs, log) (state.1.abs, state.2) := by
  have hstopped := h.stopped
  generalize pool.owner = at_ at hmove hstopped
  cases hmove with
  | queuePush w => exact .single (.queueWork w hstopped)
  | stopSet => exact .single .stop
  | stopNotify =>
      have hsame : (pool.workers.map WorkerAt.notified).map WorkerAt.abs =
          pool.workers.map WorkerAt.abs := by
        rw [List.map_map]
        refine List.map_congr_left ?_
        intro worker _
        cases worker <;> rfl
      simp only [Pool.abs, hsame]
      exact .refl
  | queueLock | queueUnlock | stopLock | stopUnlock | join | joined => exact .refl

theorem PoolTurn.sections {state' : Pool τ × PoolLog τ}
    (hturn : PoolTurn state state') (h : TurnInv state.1) :
    Relation.ReflTransGen PoolStep (state.1.abs, state.2)
      (state'.1.abs, state'.2) := by
  cases hturn with
  | move hmove =>
      cases hmove with
      | worker i result =>
          obtain ⟨old, hat, hmove⟩ := workerNext_cases result
          exact hmove.sections h hat
      | owner result => exact (ownerNext_cases result).sections h
      | notifyOne i at_ asleep => exact stutter _ .lock asleep rfl
      | notifyNobody => exact .refl
  | spurious i asleep => exact stutter _ .lock asleep rfl
  | queue | destroy => exact .refl

end Refinement

/-- A run of the statements is a run of the sections. -/
theorem TurnReachable.sections {numThreads : Nat} {pool : Pool τ} {log : PoolLog τ}
    (h : TurnReachable numThreads pool log) :
    TurnInv pool ∧ PoolReachable numThreads pool.abs log := by
  have hall : ∀ state : Pool τ × PoolLog τ, Relation.ReflTransGen PoolTurn
      (Pool.create numThreads, {}) state → TurnInv state.1 ∧
        PoolReachable numThreads state.1.abs state.2 := by
    intro state hrun
    induction hrun with
    | refl =>
        refine ⟨.create numThreads, ?_⟩
        have hcreate : (Pool.create numThreads : Pool τ).abs =
            ThreadPool.create numThreads := by
          simp [Pool.abs, Pool.create, ThreadPool.create, WorkerAt.abs]
        rw [hcreate]
        exact .refl
    | tail _ hturn ih => exact ⟨hturn.inv ih.1, ih.2.trans (hturn.sections ih.1)⟩
  exact hall _ h

end MiniRedis.Threadpool
