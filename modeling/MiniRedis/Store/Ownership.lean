import MiniRedis.Store.DatabaseOps

namespace MiniRedis.Store

open MiniRedis.Data MiniRedis.Ds

/-! Who owns an entry.  The operations of the keyspace are cut into the
creation of an entry, its hand-over to the worker pool, its teardown, and what
leaves every entry with its owner or takes it from the map. -/

inductive Event
  | created (p : Ptr)
  | queued (p : Ptr)
  | freed (p : Ptr)

def createdIn (events : List Event) : List Ptr :=
  events.filterMap fun
    | .created p => some p
    | _ => none

def queuedIn (events : List Event) : List Ptr :=
  events.filterMap fun
    | .queued p => some p
    | _ => none

def freedIn (events : List Event) : List Ptr :=
  events.filterMap fun
    | .freed p => some p
    | _ => none

/-- An event `queued` is a call of the pool's `queue`, an event `freed` a call
of `entry_del_sync`. -/
inductive OwnStep : Database → List Event → Database → Prop
  | keep {db db' : Database}
      (linked : ∀ q ∈ db'.map.nodes, q ∈ db.map.nodes)
      (pooled : ∀ q ∈ db'.pooled, q ∈ db.pooled)
      (held : ∀ q ∈ db.pooled, q ∈ db'.pooled ∨ db.ent q = none)
      (live : ∀ q, db'.ent q = none ↔ db.ent q = none)
      (alloc : db'.alloc = db.alloc) : OwnStep db [] db'
  | create {db db' : Database}
      (linked : ∀ q ∈ db'.map.nodes, q = db.alloc ∨ q ∈ db.map.nodes)
      (pooled : db'.pooled = db.pooled)
      (live : ∀ q, db'.ent q = none ↔ q ≠ db.alloc ∧ db.ent q = none)
      (alloc : db'.alloc = db.alloc + 1) :
      OwnStep db [.created db.alloc] db'
  | queue {db : Database} {p : Ptr} {pool : Pool} (hpool : db.pool = some pool)
      (live : db.ent p ≠ none) (fresh : p ∉ db.pooled) :
      OwnStep db [.queued p]
        { db with pool := some { pool with queue := pool.queue ++ [p] } }
  | free {db db' : Database} {p : Ptr} (result : entryDelSync db p = some db') :
      OwnStep db [.freed p] db'

inductive Trace : Database → List Event → Database → Prop
  | nil (db : Database) : Trace db [] db
  | cons {first next last : Database} {events rest : List Event}
      (hstep : OwnStep first events next) (htrace : Trace next rest last) :
      Trace first (events ++ rest) last

def Traced (db db' : Database) : Prop := ∃ events, Trace db events db'

variable {db db' last : Database} {events rest : List Event} {p q : Ptr}

theorem Trace.trans (h : Trace db events db') (h' : Trace db' rest last) :
    Trace db (events ++ rest) last := by
  induction h with
  | nil db => exact h'
  | cons hstep _ ih =>
      rw [List.append_assoc]
      exact .cons hstep (ih h')

namespace Traced

theorem refl (db : Database) : Traced db db := ⟨[], .nil db⟩

theorem of_step (h : OwnStep db events db') : Traced db db' :=
  ⟨events ++ [], .cons h (.nil db')⟩

theorem trans (h : Traced db db') (h' : Traced db' last) : Traced db last := by
  obtain ⟨events, htrace⟩ := h
  obtain ⟨rest, htrace'⟩ := h'
  exact ⟨events ++ rest, htrace.trans htrace'⟩

theorem map {map : HMap Ptr} (h : ∀ q ∈ map.nodes, q ∈ db.map.nodes) :
    Traced db { db with map := map } :=
  .of_step (.keep h (fun _ hq => hq) (fun _ hq => .inl hq) (fun _ => Iff.rfl)
    rfl)

theorem ttl (ttl : Heap Ptr) : Traced db { db with ttl := ttl } :=
  .of_step (.keep (fun _ hq => hq) (fun _ hq => hq) (fun _ hq => .inl hq)
    (fun _ => Iff.rfl) rfl)

theorem setEntry {e : Entry} (e' : Entry) (h : db.ent p = some e) :
    Traced db (db.setEntry p (some e')) := by
  have hlive : ∀ q, (db.setEntry p (some e')).ent q = none ↔
      db.ent q = none := by
    intro q
    by_cases hq : q = p
    · rw [hq, db.setEntry_self, h]
      simp
    · rw [db.setEntry_other hq]
  exact .of_step (.keep (fun _ hq => hq) (fun _ hq => hq)
    (fun _ hq => .inl hq) hlive rfl)

end Traced

/-! What a log of events says about the entries. -/

structure Logged (db : Database) (events : List Event) : Prop where
  bound : ∀ q, db.ent q ≠ none → q < db.alloc
  created : createdIn events = List.range db.alloc
  queued_nodup : (queuedIn events).Nodup
  queued : ∀ q ∈ queuedIn events,
    q < db.alloc ∧ (q ∈ db.pooled ∨ db.ent q = none)
  handed : ∀ q ∈ db.pooled, q ∈ queuedIn events
  freed_nodup : (freedIn events).Nodup
  freed : ∀ q, q ∈ freedIn events ↔ q < db.alloc ∧ db.ent q = none

theorem entryDelSync_eq (h : entryDelSync db p = some db') :
    db.ent p ≠ none ∧ db' = db.setEntry p none := by
  simp only [entryDelSync, Option.bind_eq_bind, Option.bind_eq_some_iff,
    Option.some.injEq] at h
  obtain ⟨e, hentry, cleared, -, rfl⟩ := h
  exact ⟨by simp [hentry], rfl⟩

theorem Logged.empty (pool : Option Pool)
    (hpool : pool = none ∨ pool = some {}) :
    Logged { pool := pool } [] := by
  have hpooled : Database.pooled { pool := pool } = [] := by
    rcases hpool with rfl | rfl <;> rfl
  exact ⟨by simp, rfl, .nil, by simp [queuedIn], by simp [hpooled], .nil,
    by simp [freedIn]⟩

theorem Logged.keep (h : Logged db events)
    (pooled : ∀ q ∈ db'.pooled, q ∈ db.pooled)
    (held : ∀ q ∈ db.pooled, q ∈ db'.pooled ∨ db.ent q = none)
    (live : ∀ q, db'.ent q = none ↔ db.ent q = none)
    (alloc : db'.alloc = db.alloc) : Logged db' events := by
  refine ⟨?_, ?_, h.queued_nodup, ?_, ?_, h.freed_nodup, ?_⟩
  · intro q hq
    rw [alloc]
    exact h.bound q fun hnone => hq ((live q).mpr hnone)
  · rw [alloc, h.created]
  · intro q hq
    obtain ⟨hbound, hplace⟩ := h.queued q hq
    rw [alloc, live q]
    refine ⟨hbound, ?_⟩
    rcases hplace with hpooled | hfreed
    · exact held q hpooled
    · exact .inr hfreed
  · intro q hq
    exact h.handed q (pooled q hq)
  · intro q
    rw [h.freed q, alloc, live q]

theorem Logged.create (h : Logged db events) (pooled : db'.pooled = db.pooled)
    (live : ∀ q, db'.ent q = none ↔ q ≠ db.alloc ∧ db.ent q = none)
    (alloc : db'.alloc = db.alloc + 1) :
    Logged db' (events ++ [.created db.alloc]) := by
  have hcreated : createdIn (events ++ [.created db.alloc]) =
      createdIn events ++ [db.alloc] := by simp [createdIn]
  have hqueued : queuedIn (events ++ [.created db.alloc]) =
      queuedIn events := by simp [queuedIn]
  have hfreed : freedIn (events ++ [.created db.alloc]) = freedIn events := by
    simp [freedIn]
  refine ⟨?_, ?_, hqueued ▸ h.queued_nodup, ?_, ?_, hfreed ▸ h.freed_nodup, ?_⟩
  · intro q hq
    rw [alloc]
    by_cases hself : q = db.alloc
    · exact hself ▸ Nat.lt_succ_self _
    · exact Nat.lt_succ_of_lt
        (h.bound q fun hnone => hq ((live q).mpr ⟨hself, hnone⟩))
  · rw [hcreated, alloc, h.created, List.range_succ]
  · intro q hq
    rw [hqueued] at hq
    obtain ⟨hbound, hplace⟩ := h.queued q hq
    rw [alloc, pooled, live q]
    exact ⟨Nat.lt_succ_of_lt hbound,
      hplace.imp_right fun hnone => ⟨Nat.ne_of_lt hbound, hnone⟩⟩
  · intro q hq
    rw [pooled] at hq
    rw [hqueued]
    exact h.handed q hq
  · intro q
    rw [hfreed, h.freed q, alloc, live q]
    constructor
    · intro ⟨hbound, hnone⟩
      exact ⟨Nat.lt_succ_of_lt hbound, Nat.ne_of_lt hbound, hnone⟩
    · intro ⟨hbound, hne, hnone⟩
      exact ⟨Nat.lt_of_le_of_ne (Nat.le_of_lt_succ hbound) hne, hnone⟩

theorem Logged.queue (h : Logged db events) {pool : Pool}
    (hpool : db.pool = some pool) (live : db.ent p ≠ none)
    (fresh : p ∉ db.pooled) :
    Logged { db with pool := some { pool with queue := pool.queue ++ [p] } }
      (events ++ [.queued p]) := by
  have hcreated : createdIn (events ++ [.queued p]) = createdIn events := by
    simp [createdIn]
  have hqueued : queuedIn (events ++ [.queued p]) = queuedIn events ++ [p] := by
    simp [queuedIn]
  have hfreed : freedIn (events ++ [.queued p]) = freedIn events := by
    simp [freedIn]
  have hpooled : ∀ q, q ∈ Database.pooled { db with
      pool := some { pool with queue := pool.queue ++ [p] } } ↔
        q ∈ db.pooled ∨ q = p := by
    intro q
    simp only [Database.pooled, hpool, List.mem_append, List.mem_singleton]
    tauto
  have hnew : p ∉ queuedIn events := by
    intro hp
    rcases (h.queued p hp).2 with hin | hnone
    · exact fresh hin
    · exact live hnone
  refine ⟨h.bound, hcreated.trans h.created, ?_, ?_, ?_,
    hfreed ▸ h.freed_nodup, fun q => hfreed ▸ h.freed q⟩
  · rw [hqueued, ← List.concat_eq_append]
    exact h.queued_nodup.concat hnew
  · intro q hq
    rw [hqueued, List.mem_append, List.mem_singleton] at hq
    rw [hpooled q]
    rcases hq with hold | rfl
    · obtain ⟨hbound, hplace⟩ := h.queued q hold
      exact ⟨hbound, hplace.imp_left .inl⟩
    · exact ⟨h.bound q live, .inl (.inr rfl)⟩
  · intro q hq
    rw [hqueued, List.mem_append, List.mem_singleton]
    exact ((hpooled q).mp hq).imp_left (h.handed q)

theorem Logged.free (h : Logged db events) (live : db.ent p ≠ none) :
    Logged (db.setEntry p none) (events ++ [.freed p]) := by
  have hcreated : createdIn (events ++ [.freed p]) = createdIn events := by
    simp [createdIn]
  have hqueued : queuedIn (events ++ [.freed p]) = queuedIn events := by
    simp [queuedIn]
  have hfreed : freedIn (events ++ [.freed p]) = freedIn events ++ [p] := by
    simp [freedIn]
  have hnone : ∀ q, (db.setEntry p none).ent q = none ↔
      q = p ∨ db.ent q = none := by
    intro q
    by_cases hq : q = p
    · simp [hq, db.setEntry_self]
    · simp [hq, db.setEntry_other hq]
  refine ⟨?_, hcreated.trans h.created, hqueued ▸ h.queued_nodup, ?_, ?_, ?_, ?_⟩
  · intro q hq
    exact h.bound q fun hq' => hq ((hnone q).mpr (.inr hq'))
  · intro q hq
    rw [hqueued] at hq
    obtain ⟨hbound, hplace⟩ := h.queued q hq
    exact ⟨hbound, hplace.imp_right fun hq' => (hnone q).mpr (.inr hq')⟩
  · intro q hq
    rw [hqueued]
    exact h.handed q hq
  · rw [hfreed, ← List.concat_eq_append]
    exact h.freed_nodup.concat fun hp => live ((h.freed p).mp hp).2
  · intro q
    rw [hfreed, List.mem_append, List.mem_singleton, h.freed q, hnone q]
    constructor
    · intro hq
      rcases hq with ⟨hbound, hq⟩ | rfl
      · exact ⟨hbound, .inr hq⟩
      · exact ⟨h.bound q live, .inl rfl⟩
    · intro ⟨hbound, hq⟩
      exact hq.symm.imp_left fun hnone => ⟨hbound, hnone⟩

theorem OwnStep.logged {new : List Event} (hstep : OwnStep db new db')
    (h : Logged db events) : Logged db' (events ++ new) := by
  cases hstep with
  | keep _ pooled held live alloc =>
      rw [List.append_nil]
      exact h.keep pooled held live alloc
  | create _ pooled live alloc => exact h.create pooled live alloc
  | queue hpool live fresh => exact h.queue hpool live fresh
  | free result =>
      obtain ⟨live, rfl⟩ := entryDelSync_eq result
      exact h.free live

theorem Trace.logged {new : List Event} (htrace : Trace db new db')
    (h : Logged db events) : Logged db' (events ++ new) := by
  induction htrace generalizing events with
  | nil db =>
      rw [List.append_nil]
      exact h
  | cons hstep _ ih =>
      rw [← List.append_assoc]
      exact ih (hstep.logged h)

/-! The operations of the database as traces. -/

theorem Database.Inv.not_pooled (h : db.Inv) (hp : p ∈ db.map.nodes) :
    p ∉ db.pooled :=
  fun hin => List.disjoint_of_nodup_append h.disjoint hp hin

theorem entrySetTtl_eq {ttlMs : Int} {now : UInt64}
    (h : entrySetTtl db p ttlMs now = some db') :
    ∃ ttl, db' = { db with ttl := ttl } := by
  unfold entrySetTtl at h
  split at h
  · split at h
    · obtain ⟨ttl, -, hset⟩ := Option.bind_eq_some_iff.mp h
      cases hset
      exact ⟨_, rfl⟩
    · cases h
      exact ⟨db.ttl, rfl⟩
  · obtain ⟨ttl, -, hset⟩ := Option.bind_eq_some_iff.mp h
    cases hset
    exact ⟨_, rfl⟩

theorem entrySetTtl_traced {ttlMs : Int} {now : UInt64}
    (h : entrySetTtl db p ttlMs now = some db') : Traced db db' := by
  obtain ⟨ttl, rfl⟩ := entrySetTtl_eq h
  exact .ttl ttl

/-- Only an entry that is not with the pool already may be deleted. -/
theorem entryDel_traced (h : entryDel db p = some db')
    (hfresh : p ∉ db.pooled) : Traced db db' := by
  simp only [entryDel, Option.bind_eq_bind, Option.bind_eq_some_iff] at h
  obtain ⟨timed, hset, e, hentry, hdel⟩ := h
  obtain ⟨ttl, rfl⟩ := entrySetTtl_eq hset
  apply (Traced.ttl ttl).trans
  split at hdel
  next pool hpool =>
    split at hdel
    next =>
      cases hdel
      have hlive : db.ent p ≠ none := by
        rw [show db.ent p = some e from hentry]
        exact Option.some_ne_none e
      exact .of_step (.queue hpool hlive hfresh)
    next => exact .of_step (.free hdel)
  next => exact .of_step (.free hdel)

theorem reapEntry_traced {e : Entry} {due : Option Nat} (h : db.Inv)
    (hholds : db.Holds p e due) (hreap : reapEntry db p = some db') :
    Traced db db' := by
  obtain ⟨map, hdelete, -, hnodes⟩ := hnodeSame_delete h hholds
  simp only [reapEntry, hholds.entry, hdelete, Option.bind_eq_bind,
    Option.bind_some] at hreap
  have hmap : Traced db { db with map := map } :=
    .map fun q hq => hnodes.mem_iff.mpr (List.mem_cons_of_mem _ hq)
  exact hmap.trans (entryDel_traced hreap (h.not_pooled hholds.linked))

theorem reapLoop_traced (now : UInt64) (works : Nat) (h : db.Inv)
    (hreap : reapLoop now works db = some db') : Traced db db' := by
  induction works generalizing db with
  | zero =>
      cases hreap
      exact .refl _
  | succ works ih =>
      rw [reapLoop] at hreap
      split at hreap
      next item hhead =>
        split at hreap
        next =>
          obtain ⟨e, hholds⟩ := h.root_holds hhead
          obtain ⟨next, hnext, hstores⟩ := reapEntry_stores h hholds
          rw [hnext] at hreap
          exact (reapEntry_traced h hholds hnext).trans (ih hstores.inv hreap)
        next =>
          cases hreap
          exact .refl _
      next =>
        cases hreap
        exact .refl _

theorem newEntry_traced {e : Entry} {map : HMap Ptr}
    (hnodes : map.nodes.Perm (db.alloc :: db.map.nodes)) :
    Traced db { (db.newEntry e).1 with map := map } := by
  have hlinked : ∀ q ∈ map.nodes, q = db.alloc ∨ q ∈ db.map.nodes := by
    intro q hq
    exact List.mem_cons.mp (hnodes.mem_iff.mp hq)
  have hlive : ∀ q, (db.newEntry e).1.ent q = none ↔
      q ≠ db.alloc ∧ db.ent q = none := by
    intro q
    by_cases hq : q = db.alloc
    · simp [hq, db.newEntry_self e]
    · simp [hq, db.newEntry_other e hq]
  exact .of_step (.create hlinked rfl hlive rfl)

theorem workerTake_traced (h : workerTake db = some db') : Traced db db' := by
  unfold workerTake at h
  split at h
  next ent queue running hpool =>
    cases h
    have hpooled : ∀ q, q ∈ Database.pooled { db with
        pool := some ⟨queue, ent :: running⟩ } ↔ q ∈ db.pooled := by
      intro q
      simp only [Database.pooled, hpool, List.mem_append, List.mem_cons]
      tauto
    exact .of_step (.keep (fun _ hq => hq) (fun q hq => (hpooled q).mp hq)
      (fun q hq => .inl ((hpooled q).mpr hq)) (fun _ => Iff.rfl) rfl)
  next =>
    cases h
    exact .refl db

theorem workerFinish_traced (h : workerFinish db p = some db') :
    Traced db db' := by
  unfold workerFinish at h
  split at h
  next pool hpool =>
    split at h
    next hmem =>
      simp only [entryDelSync, Option.bind_eq_bind, Option.bind_eq_some_iff]
        at h
      obtain ⟨e, hentry, cleared, hclear, hdone⟩ := h
      cases hdone
      have hfree : entryDelSync db p = some (db.setEntry p none) := by
        simp [entryDelSync, hentry, hclear]
      have hpooled : db.pooled = pool.queue ++ pool.running := by
        simp [Database.pooled, hpool]
      apply (Traced.of_step (.free hfree)).trans
      apply Traced.of_step
      apply OwnStep.keep
      · exact fun _ hq => hq
      · intro q hq
        rw [show (db.setEntry p none).pooled = db.pooled from rfl, hpooled]
        exact List.mem_append.mpr
          ((List.mem_append.mp hq).imp_right List.mem_of_mem_erase)
      · intro q hq
        rw [show (db.setEntry p none).pooled = db.pooled from rfl, hpooled] at hq
        by_cases hself : q = p
        · exact .inr (hself ▸ db.setEntry_self p none)
        · exact .inl (List.mem_append.mpr ((List.mem_append.mp hq).imp_right
            (List.mem_erase_of_ne hself).mpr))
      · exact fun _ => Iff.rfl
      · rfl
    next =>
      cases h
      exact .refl db
  next =>
    cases h
    exact .refl db

end MiniRedis.Store
