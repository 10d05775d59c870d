import Mathlib.Data.List.Perm.Basic
import Mathlib.Logic.Relation

namespace MiniRedis.Threadpool

variable {τ : Type}

/-! The worker pool.  The steps are the sections that hold the mutex, and the
returns of tasks; a waiting worker may wake at any time. -/

/-- A worker that waits for the mutex or for work, runs a task, or has left its
loop. -/
inductive Worker (τ : Type)
  | waiting
  | running (w : τ)
  | exited

def Worker.task : Worker τ → Option τ
  | .running w => some w
  | _ => none

def Worker.isExited : Worker τ → Bool
  | .exited => true
  | _ => false

structure ThreadPool (τ : Type) where
  queue : List τ := []
  stop : Bool := false
  threads : List (Worker τ)

namespace ThreadPool

def create (numThreads : Nat) : ThreadPool τ where
  threads := List.replicate (if numThreads = 0 then 1 else numThreads) .waiting

/-- `queue`, up to its notification. -/
def queueWork (pool : ThreadPool τ) (w : τ) : ThreadPool τ :=
  { pool with queue := pool.queue ++ [w] }

/-- Thread `i` in `worker_loop` with the mutex: the predicate of the wait, then
the return or the front task.  The task it took comes second. -/
def workerLoopSection (pool : ThreadPool τ) (i : Nat) :
    Option (ThreadPool τ × Option τ) :=
  match pool.threads[i]? with
  | some .waiting =>
      if !pool.queue.isEmpty || pool.stop then
        match pool.queue with
        | [] =>
            some ({ pool with threads := pool.threads.set i .exited }, none)
        | w :: queue =>
            some ({ pool with
              queue := queue
              threads := pool.threads.set i (.running w) }, some w)
      else
        -- a spurious wakeup, or another worker was faster
        some (pool, none)
  | _ => none

/-- `w.f(w.arg)` returns in thread `i`. -/
def finishTask (pool : ThreadPool τ) (i : Nat) : Option (ThreadPool τ × τ) :=
  match pool.threads[i]? with
  | some (.running w) =>
      some ({ pool with threads := pool.threads.set i .waiting }, w)
  | _ => none

/-- The destructor's section. -/
def requestStop (pool : ThreadPool τ) : ThreadPool τ := { pool with stop := true }

/-- The joins of the destructor have returned. -/
def joined (pool : ThreadPool τ) : Bool := pool.threads.all Worker.isExited

def running (pool : ThreadPool τ) : List τ := pool.threads.filterMap Worker.task

end ThreadPool

/-- The tasks in the order of the calls of `queue`, of their removal from the
queue, and of their returns. -/
structure PoolLog (τ : Type) where
  queued : List τ := []
  taken : List τ := []
  finished : List τ := []

/-- Once the destructor has begun nothing more is queued. -/
inductive PoolStep :
    ThreadPool τ × PoolLog τ → ThreadPool τ × PoolLog τ → Prop
  | queueWork {pool : ThreadPool τ} {log : PoolLog τ} (w : τ)
      (open_ : pool.stop = false) :
      PoolStep (pool, log)
        (pool.queueWork w, { log with queued := log.queued ++ [w] })
  | worker {pool pool' : ThreadPool τ} {log : PoolLog τ} (i : Nat)
      {taken : Option τ}
      (result : pool.workerLoopSection i = some (pool', taken)) :
      PoolStep (pool, log)
        (pool', { log with taken := log.taken ++ taken.toList })
  | finish {pool pool' : ThreadPool τ} {log : PoolLog τ} (i : Nat) {w : τ}
      (result : pool.finishTask i = some (pool', w)) :
      PoolStep (pool, log)
        (pool', { log with finished := log.finished ++ [w] })
  | stop {pool : ThreadPool τ} {log : PoolLog τ} :
      PoolStep (pool, log) (pool.requestStop, log)

def PoolReachable (numThreads : Nat) (pool : ThreadPool τ) (log : PoolLog τ) :
    Prop :=
  Relation.ReflTransGen PoolStep (ThreadPool.create numThreads, {}) (pool, log)

/-! What a worker's section can do. -/

inductive SectionOutcome (pool : ThreadPool τ) (i : Nat) :
    ThreadPool τ × Option τ → Prop
  | asleep : SectionOutcome pool i (pool, none)
  | left (hqueue : pool.queue = []) (hstop : pool.stop = true) :
      SectionOutcome pool i
        ({ pool with threads := pool.threads.set i .exited }, none)
  | took {w : τ} {queue : List τ} (hqueue : pool.queue = w :: queue) :
      SectionOutcome pool i ({ pool with
        queue := queue
        threads := pool.threads.set i (.running w) }, some w)

theorem workerLoopSection_cases {pool : ThreadPool τ} {i : Nat}
    {result : ThreadPool τ × Option τ}
    (h : pool.workerLoopSection i = some result) :
    pool.threads[i]? = some .waiting ∧ SectionOutcome pool i result := by
  unfold ThreadPool.workerLoopSection at h
  split at h
  next hwaiting =>
    refine ⟨hwaiting, ?_⟩
    split at h
    next hgo =>
      split at h
      next hqueue =>
        cases h
        exact .left hqueue (by simpa [hqueue] using hgo)
      next hqueue =>
        cases h
        exact .took hqueue
    next =>
      cases h
      exact .asleep
  next => cases h

theorem finishTask_cases {pool pool' : ThreadPool τ} {i : Nat} {w : τ}
    (h : pool.finishTask i = some (pool', w)) :
    pool.threads[i]? = some (.running w) ∧
      pool' = { pool with threads := pool.threads.set i .waiting } := by
  unfold ThreadPool.finishTask at h
  split at h
  next hrunning =>
    cases h
    exact ⟨hrunning, rfl⟩
  next => cases h

theorem tasks_set {threads : List (Worker τ)} {i : Nat} {old : Worker τ}
    (new : Worker τ) (h : threads[i]? = some old) :
    (old.task.toList ++ (threads.set i new).filterMap Worker.task).Perm
      (new.task.toList ++ threads.filterMap Worker.task) := by
  obtain ⟨hi, rfl⟩ := List.getElem?_eq_some_iff.mp h
  have hnew := (List.set_perm_cons_eraseIdx hi new).filterMap Worker.task
  have hold := (List.getElem_cons_eraseIdx_perm hi).filterMap Worker.task
  have hcons : ∀ (worker : Worker τ) (rest : List (Worker τ)),
      (worker :: rest).filterMap Worker.task =
        worker.task.toList ++ rest.filterMap Worker.task := by
    intro worker rest
    cases worker <;> rfl
  rw [hcons] at hnew hold
  have hswap : (threads[i].task.toList ++ (new.task.toList ++
      (threads.eraseIdx i).filterMap Worker.task)).Perm
        (new.task.toList ++ (threads[i].task.toList ++
          (threads.eraseIdx i).filterMap Worker.task)) := by
    rw [← List.append_assoc, ← List.append_assoc]
    exact List.perm_append_comm.append_right _
  exact ((hnew.append_left _).trans hswap).trans (hold.append_left _)

/-- The log accounts for every task, and a worker leaves only a pool that was
stopped and has nothing left. -/
structure PoolInv (pool : ThreadPool τ) (log : PoolLog τ) : Prop where
  order : log.taken ++ pool.queue = log.queued
  ran : log.taken.Perm (pool.running ++ log.finished)
  drained : .exited ∈ pool.threads → pool.queue = [] ∧ pool.stop = true
  staffed : pool.threads ≠ []

theorem PoolInv.create (numThreads : Nat) :
    PoolInv (ThreadPool.create numThreads : ThreadPool τ) {} where
  order := rfl
  ran := by
    have hidle : ∀ n, (List.replicate n (.waiting : Worker τ)).filterMap
        Worker.task = [] := by
      intro n
      induction n with
      | zero => rfl
      | succ n ih => rw [List.replicate_succ, List.filterMap_cons, ih]; rfl
    simp [ThreadPool.running, ThreadPool.create, hidle]
  drained := by simp [ThreadPool.create, List.mem_replicate]
  staffed := by
    simp only [ThreadPool.create, ne_eq, List.replicate_eq_nil_iff]
    split <;> omega

theorem set_ne_nil {threads : List (Worker τ)} (i : Nat) (new : Worker τ)
    (h : threads ≠ []) : threads.set i new ≠ [] := by
  rwa [ne_eq, List.set_eq_nil_iff]

theorem PoolInv.worker {pool : ThreadPool τ} {log : PoolLog τ} {i : Nat}
    {result : ThreadPool τ × Option τ} (h : PoolInv pool log)
    (hresult : pool.workerLoopSection i = some result) :
    PoolInv result.1 { log with taken := log.taken ++ result.2.toList } := by
  obtain ⟨hwaiting, houtcome⟩ := workerLoopSection_cases hresult
  cases houtcome with
  | asleep => simpa using h
  | left hqueue hstop =>
      refine ⟨?_, ?_, fun _ => ⟨hqueue, hstop⟩, set_ne_nil _ _ h.staffed⟩
      · simpa using h.order
      · have htasks := tasks_set .exited hwaiting
        simp only [Option.toList_none, List.append_nil]
        exact h.ran.trans (htasks.symm.append_right _)
  | @took w queue hqueue =>
      refine ⟨?_, ?_, ?_, set_ne_nil _ _ h.staffed⟩
      · rw [← h.order, hqueue]
        simp
      · have htasks := tasks_set (.running w) hwaiting
        have hran := (h.ran.append_right [w]).trans
          (List.perm_append_singleton w _)
        exact hran.trans (htasks.symm.append_right log.finished)
      · intro hexited
        rcases List.mem_or_eq_of_mem_set hexited with hbefore | heq
        · rw [(h.drained hbefore).1] at hqueue
          cases hqueue
        · cases heq

theorem PoolInv.finish {pool pool' : ThreadPool τ} {log : PoolLog τ} {i : Nat}
    {w : τ} (h : PoolInv pool log)
    (hresult : pool.finishTask i = some (pool', w)) :
    PoolInv pool' { log with finished := log.finished ++ [w] } := by
  obtain ⟨hrunning, rfl⟩ := finishTask_cases hresult
  refine ⟨h.order, ?_, ?_, set_ne_nil _ _ h.staffed⟩
  · have htasks := tasks_set .waiting hrunning
    have hran := h.ran.trans (htasks.symm.append_right log.finished)
    refine hran.trans ?_
    simp only [Worker.task, Option.toList_some, List.cons_append,
      ThreadPool.running]
    rw [← List.append_assoc]
    exact (List.perm_append_singleton w _).symm
  · intro hexited
    rcases List.mem_or_eq_of_mem_set hexited with hbefore | heq
    · exact h.drained hbefore
    · cases heq

theorem PoolStep.inv {state state' : ThreadPool τ × PoolLog τ}
    (hstep : PoolStep state state') (h : PoolInv state.1 state.2) :
    PoolInv state'.1 state'.2 := by
  cases hstep with
  | @queueWork pool log w open_ =>
      refine ⟨?_, h.ran, ?_, h.staffed⟩
      · simp only [ThreadPool.queueWork, ← List.append_assoc, h.order]
      · intro hexited
        rw [(h.drained hexited).2] at open_
        cases open_
  | worker i result => exact h.worker result
  | finish i result => exact h.finish result
  | stop =>
      exact ⟨h.order, h.ran, fun hexited => ⟨(h.drained hexited).1, rfl⟩,
        h.staffed⟩

theorem PoolReachable.inv {numThreads : Nat} {pool : ThreadPool τ}
    {log : PoolLog τ} (h : PoolReachable numThreads pool log) :
    PoolInv pool log := by
  have hall : ∀ state : ThreadPool τ × PoolLog τ, Relation.ReflTransGen PoolStep
      (ThreadPool.create numThreads, {}) state → PoolInv state.1 state.2 := by
    intro state hrun
    induction hrun with
    | refl => exact .create numThreads
    | tail _ hstep ih => exact hstep.inv ih
  exact hall _ h

/-- The last worker to leave saw an empty queue. -/
theorem PoolInv.joined {pool : ThreadPool τ} {log : PoolLog τ}
    (h : PoolInv pool log) (hjoined : pool.joined = true) :
    pool.queue = [] ∧ pool.running = [] := by
  have hexited : ∀ worker ∈ pool.threads, worker = .exited := by
    intro worker hworker
    have hexit := List.all_eq_true.mp hjoined worker hworker
    cases worker with
    | exited => rfl
    | _ => cases hexit
  obtain ⟨worker, hworker⟩ := List.exists_mem_of_ne_nil _ h.staffed
  refine ⟨(h.drained (hexited worker hworker ▸ hworker)).1, ?_⟩
  rw [ThreadPool.running, List.filterMap_eq_nil_iff]
  intro worker hworker
  rw [hexited worker hworker]
  rfl

/-- Tasks are taken in the order they were queued and none is lost; when every
worker has left, the queue is empty and each queued task has run once. -/
theorem pool_runs_each_once {numThreads : Nat} {pool : ThreadPool τ}
    {log : PoolLog τ} (hreach : PoolReachable numThreads pool log) :
    log.taken ++ pool.queue = log.queued ∧
    (log.queued.Nodup → log.taken.Nodup) ∧
    log.queued.Perm (pool.queue ++ pool.running ++ log.finished) ∧
    (pool.joined = true → pool.queue = [] ∧ pool.running = [] ∧
      log.finished.Perm log.queued) := by
  have h := hreach.inv
  have hqueued : log.queued.Perm (pool.queue ++ pool.running ++ log.finished) := by
    rw [← h.order, List.append_assoc]
    exact List.perm_append_comm.trans (h.ran.append_left _)
  refine ⟨h.order, ?_, hqueued, ?_⟩
  · intro hnodup
    rw [← h.order] at hnodup
    exact (List.nodup_append.mp hnodup).1
  · intro hjoined
    obtain ⟨hempty, hidle⟩ := h.joined hjoined
    rw [hempty, hidle] at hqueued
    exact ⟨hempty, hidle, hqueued.symm⟩

theorem pool_runs_each_once_one :
    ∃ (pool : ThreadPool Nat) (log : PoolLog Nat), PoolReachable 1 pool log ∧
      pool.joined = true ∧ log.queued = [7] ∧ log.finished.Perm [7] := by
  have hpushed : PoolReachable 1 (⟨[7], false, [.waiting]⟩ : ThreadPool Nat)
      ⟨[7], [], []⟩ := .tail .refl (.queueWork 7 rfl)
  have htaken : PoolReachable 1 (⟨[], false, [.running 7]⟩ : ThreadPool Nat)
      ⟨[7], [7], []⟩ := hpushed.tail (.worker 0
      (show ThreadPool.workerLoopSection _ 0 = some (_, some 7) from rfl))
  have hstopped : PoolReachable 1 (⟨[], true, [.running 7]⟩ : ThreadPool Nat)
      ⟨[7], [7], []⟩ := htaken.tail .stop
  have hfinished : PoolReachable 1 (⟨[], true, [.waiting]⟩ : ThreadPool Nat)
      ⟨[7], [7], [7]⟩ := hstopped.tail (.finish 0 rfl)
  have hexited : PoolReachable 1 (⟨[], true, [.exited]⟩ : ThreadPool Nat)
      ⟨[7], [7], [7]⟩ := hfinished.tail (.worker 0
      (show ThreadPool.workerLoopSection _ 0 = some (_, none) from rfl))
  exact ⟨_, _, hexited, rfl, rfl,
    ((pool_runs_each_once hexited).2.2.2 rfl).2.2⟩

end MiniRedis.Threadpool
