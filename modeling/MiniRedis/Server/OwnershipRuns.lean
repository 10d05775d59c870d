import MiniRedis.Server.Ownership
import MiniRedis.Server.Returns
import MiniRedis.Threadpool.ThreadPool

namespace MiniRedis.Server

open MiniRedis.Data MiniRedis.Ds MiniRedis.Store MiniRedis.Protocol
open MiniRedis.Threadpool

/-! The ownership of entries over whole runs, through the destructor of the
server and the drain of its pool. -/

variable {strtod : Bytes → Double × Nat} {db db' last : Database}
  {events new : List Event} {p : Ptr}

/-! The destructor's body. -/

/-- A thread of the pool moves, and with it the task it takes or returns
from. -/
inductive DrainStep :
    ThreadPool Ptr × Database → ThreadPool Ptr × Database → Prop
  | idle {pool pool' : ThreadPool Ptr} {db : Database} (i : Nat)
      (result : pool.workerLoopSection i = some (pool', none)) :
      DrainStep (pool, db) (pool', db)
  | take {pool pool' : ThreadPool Ptr} {db db' : Database} {ent : Ptr} (i : Nat)
      (result : pool.workerLoopSection i = some (pool', some ent))
      (taken : workerTake db = some db') : DrainStep (pool, db) (pool', db')
  | finish {pool pool' : ThreadPool Ptr} {db db' : Database} {ent : Ptr}
      (i : Nat) (result : pool.finishTask i = some (pool', ent))
      (finished : workerFinish db ent = some db') :
      DrainStep (pool, db) (pool', db')

structure Staffed (pool : ThreadPool Ptr) (db : Database) : Prop where
  queue : ∃ running, db.pool = some ⟨pool.queue, running⟩ ∧
    running.Perm pool.running

theorem workerFinish_eq {tasks : Pool} (hpool : db.pool = some tasks)
    (hmem : p ∈ tasks.running) (h : workerFinish db p = some db') :
    db'.map = db.map ∧
      db'.pool = some { tasks with running := tasks.running.erase p } := by
  simp only [workerFinish, hpool, if_pos hmem] at h
  obtain ⟨-, rfl⟩ := entryDelSync_eq h
  exact ⟨rfl, rfl⟩

theorem DrainStep.staffed {pool pool' : ThreadPool Ptr}
    (hstep : DrainStep (pool, db) (pool', db')) (h : Staffed pool db) :
    Staffed pool' db' := by
  obtain ⟨running, hpool, hperm⟩ := h.queue
  cases hstep with
  | idle i result =>
      obtain ⟨hwaiting, houtcome⟩ := workerLoopSection_cases result
      cases houtcome with
      | asleep => exact h
      | left hqueue hstop =>
          exact ⟨running, hpool, hperm.trans (tasks_set .exited hwaiting).symm⟩
  | @take _ _ _ _ ent i result taken =>
      obtain ⟨hwaiting, houtcome⟩ := workerLoopSection_cases result
      cases houtcome with
      | @took _ queue hqueue =>
          rw [hqueue] at hpool
          simp only [workerTake, hpool] at taken
          cases taken
          exact ⟨ent :: running, rfl,
            (hperm.cons ent).trans (tasks_set (.running ent) hwaiting).symm⟩
  | @finish _ _ _ _ ent i result finished =>
      obtain ⟨hrunning, rfl⟩ := finishTask_cases result
      have htasks : pool.running.Perm
          (ent :: ThreadPool.running { pool with
            threads := pool.threads.set i .waiting }) :=
        (tasks_set .waiting hrunning).symm
      have hmem : ent ∈ running :=
        (hperm.trans htasks).mem_iff.mpr List.mem_cons_self
      obtain ⟨-, hdone⟩ := workerFinish_eq hpool hmem finished
      exact ⟨running.erase ent, hdone,
        ((List.perm_cons_erase hmem).symm.trans (hperm.trans htasks)).cons_inv⟩

theorem DrainStep.inv {pool pool' : ThreadPool Ptr}
    (hstep : DrainStep (pool, db) (pool', db')) (h : db.Inv)
    (hstaffed : Staffed pool db) :
    db'.Inv ∧ db'.map = db.map ∧ Traced db db' := by
  obtain ⟨running, hpool, hperm⟩ := hstaffed.queue
  cases hstep with
  | idle i result => exact ⟨h, rfl, .refl db⟩
  | take i result taken =>
      refine ⟨(workerTake_keeps h taken).1, ?_, workerTake_traced taken⟩
      obtain ⟨-, houtcome⟩ := workerLoopSection_cases result
      cases houtcome with
      | took hqueue =>
          rw [hqueue] at hpool
          simp only [workerTake, hpool] at taken
          cases taken
          rfl
  | @finish _ _ _ _ ent i result finished =>
      refine ⟨(workerFinish_keeps h finished).1, ?_,
        workerFinish_traced finished⟩
      obtain ⟨hrunning, -⟩ := finishTask_cases result
      have hmem : ent ∈ running := by
        rw [hperm.mem_iff]
        exact List.mem_filterMap.mpr ⟨_, List.mem_of_getElem? hrunning, rfl⟩
      exact (workerFinish_eq hpool hmem finished).1

theorem DrainStep.pool {pool pool' : ThreadPool Ptr} (log : PoolLog Ptr)
    (hstep : DrainStep (pool, db) (pool', db')) :
    ∃ log', PoolStep (pool, log) (pool', log') := by
  cases hstep with
  | idle i result => exact ⟨_, .worker i result⟩
  | take i result _ => exact ⟨_, .worker i result⟩
  | finish i result _ => exact ⟨_, .finish i result⟩

structure Draining (pool : ThreadPool Ptr) (db : Database)
    (events : List Event) : Prop where
  threads : ∃ log, PoolInv pool log
  staffed : Staffed pool db
  inv : db.Inv
  cleared : db.map = {}
  logged : Logged db events

theorem Draining.pooled {pool : ThreadPool Ptr}
    (h : Draining pool db events) (hjoined : pool.joined = true) :
    db.pooled = [] := by
  obtain ⟨log, hpool⟩ := h.threads
  obtain ⟨hqueue, hrunning⟩ := hpool.joined hjoined
  obtain ⟨running, htasks, hperm⟩ := h.staffed.queue
  rw [hrunning] at hperm
  rw [hqueue, hperm.eq_nil] at htasks
  simp [Database.pooled, htasks]

/-! Whole runs. -/

inductive OwnershipRun (strtod : Bytes → Double × Nat) :
    Database → List Event → Prop
  | start (pool : Option Pool) (hpool : pool = none ∨ pool = some {}) :
      OwnershipRun strtod { pool := pool } []
  | step {db db' : Database} {action : DatabaseAction} {events new : List Event}
      (hrun : OwnershipRun strtod db events)
      (hstep : DatabaseStep strtod db action db') (htrace : Trace db new db') :
      OwnershipRun strtod db' (events ++ new)

theorem OwnershipRun.logged (hrun : OwnershipRun strtod db events) :
    db.Inv ∧ Logged db events := by
  induction hrun with
  | start pool hpool => exact ⟨.empty pool hpool, .empty pool hpool⟩
  | step _ hstep htrace ih =>
      exact ⟨hstep.inv ih.1, htrace.logged ih.2⟩

end MiniRedis.Server
