import MiniRedis.Server.Dispatch
import Mathlib.Logic.Relation

namespace MiniRedis.Server

open MiniRedis.Data MiniRedis.Ds MiniRedis.Store MiniRedis.Protocol

/-! Whole runs of the database: requests, reaping passes and the workers'
steps, in any order and at any clock readings. -/

variable {strtod : Bytes → Double × Nat} {db db' : Database}
  {action : DatabaseAction}

/-- A reaping step is a pass of `process_timers`, or the part of one up to any
of its iterations. -/
inductive DatabaseAction
  | request (cmd : List Bytes) (out : Bytes) (clock : Clock)
  | reap (now : UInt64) (works : Nat)
  | take
  | finish (ent : Ptr)

namespace DatabaseAction

def readings : DatabaseAction → List UInt64
  | request _ _ clock => [clock.lookup, clock.act]
  | reap now _ => [now]
  | take | finish _ => []

def time (last : UInt64) (action : DatabaseAction) : UInt64 :=
  action.readings.getLastD last

def Ordered (last : UInt64) (action : DatabaseAction) : Prop :=
  (last :: action.readings).Pairwise (· ≤ ·)

theorem Ordered.le {last : UInt64} {action : DatabaseAction}
    (h : action.Ordered last) : last ≤ action.time last := by
  cases action with
  | request cmd out clock =>
      exact (List.pairwise_cons.mp h).1 clock.act (by simp [readings])
  | reap now works => exact (List.pairwise_cons.mp h).1 now (by simp [readings])
  | take => exact UInt64.le_refl last
  | finish ent => exact UInt64.le_refl last

end DatabaseAction

inductive DatabaseStep (strtod : Bytes → Double × Nat) :
    Database → DatabaseAction → Database → Prop
  | request {db db' : Database} (cmd : List Bytes) (out : Bytes)
      (clock : Clock) {out' : Bytes}
      (result : doRequest strtod cmd db out clock = some (db', out')) :
      DatabaseStep strtod db (.request cmd out clock) db'
  | reap {db db' : Database} (now : UInt64) (works : Nat)
      (bound : works ≤ kMaxWorks) (result : reapLoop now works db = some db') :
      DatabaseStep strtod db (.reap now works) db'
  | take {db db' : Database} (result : workerTake db = some db') :
      DatabaseStep strtod db .take db'
  | finish {db db' : Database} (ent : Ptr)
      (result : workerFinish db ent = some db') :
      DatabaseStep strtod db (.finish ent) db'

def DatabaseReachable (strtod : Bytes → Double × Nat) (db : Database) : Prop :=
  ∃ pool, (pool = none ∨ pool = some {}) ∧ Relation.ReflTransGen
    (fun db db' => ∃ action, DatabaseStep strtod db action db') { pool := pool } db

theorem Answers.inv {out out' : Bytes} {clock : Clock} {request : Request}
    (h : Answers db out clock request (some (db', out'))) (hinv : db.Inv) :
    db'.Inv := by
  cases h with
  | reject => exact hinv
  | keys => exact hinv
  | on _ hacts =>
      obtain ⟨_, _, _, hstores, _⟩ := hacts.of_some
      exact hstores.inv

theorem DatabaseStep.inv (hstep : DatabaseStep strtod db action db')
    (h : db.Inv) : db'.Inv := by
  cases hstep with
  | request cmd out clock result =>
      have hanswers := doRequest_answers h strtod cmd out clock
      rw [result] at hanswers
      exact hanswers.inv h
  | reap now works _ result => exact (reapLoop_keeps h result).1
  | take result => exact (workerTake_keeps h result).1
  | finish ent result => exact (workerFinish_keeps h result).1

theorem DatabaseReachable.inv (h : DatabaseReachable strtod db) : db.Inv := by
  obtain ⟨pool, hpool, hrun⟩ := h
  induction hrun with
  | refl => exact Database.Inv.empty pool hpool
  | tail _ hstep ih =>
      obtain ⟨action, hstep⟩ := hstep
      exact hstep.inv ih

/-- The map, the heap and the entries' index fields agree in every state, and
the reaper deletes linked entries only. -/
theorem database_structures_agree (hreach : DatabaseReachable strtod db) :
    (db.map.nodes.map db.key).Nodup ∧
    (∀ p ∈ db.map.nodes, ∃ e, db.ent p = some e ∧ e.hcode = strHash e.key) ∧
    (∀ i parent child, 0 < i → db.ttl.items[heapParent i]? = some parent →
      db.ttl.items[i]? = some child → parent.val ≤ child.val) ∧
    (∀ i item, db.ttl.items[i]? = some item →
      item.ref ∈ db.map.nodes ∧ db.ttl.index.idx item.ref = some i) ∧
    (∀ p ∈ db.map.nodes, ∀ i, db.ttl.index.idx p = some i →
      i < db.ttl.items.length ∧
        ∃ item, db.ttl.items[i]? = some item ∧ item.ref = p) ∧
    (∀ item, db.ttl.items.head? = some item →
      ∃ e map, db.ent item.ref = some e ∧
        hmDelete db.hcode db.map (hnodeSame e.hcode item.ref) =
          some (map, some item.ref)) ∧
    (∀ now, ∃ db', reapKeys now db = some db') := by
  have h := hreach.inv
  refine ⟨?_, ?_, ?_, ?_, ?_, ?_, ?_⟩
  · exact h.nodup.map_on h.index.distinct
  · intro p hp
    obtain ⟨e, hentry⟩ := h.exists_entry hp
    refine ⟨e, hentry, ?_⟩
    rw [← Database.hcode_eq hentry, ← Database.key_eq hentry]
    exact h.index.hashed p hp
  · intro i parent child hi hparent hchild
    have hbound := (List.getElem?_eq_some_iff.mp hchild).1
    have hordered := h.timers.valid.ordered i hi hbound
    rw [valAt_eq hchild] at hordered
    rw [← valAt_eq hparent]
    exact hordered
  · intro i item hitem
    exact ⟨h.timers.owned item (List.mem_of_getElem? hitem),
      h.timers.valid.synced i item hitem⟩
  · intro p hp i hidx
    obtain ⟨item, hitem, href⟩ := h.timers.backed p hp i hidx
    exact ⟨(List.getElem?_eq_some_iff.mp hitem).1, item, hitem, href⟩
  · intro item hitem
    obtain ⟨e, hholds⟩ := h.root_holds hitem
    obtain ⟨map, hdelete, _⟩ := hnodeSame_delete h hholds
    exact ⟨e, map, hholds.entry, hdelete⟩
  · intro now
    obtain ⟨db', hreap, _⟩ := reapLoop_spec now kMaxWorks h
    exact ⟨db', hreap⟩

/-- The state after `cmd`, with the reply dropped; `db` itself on a crash. -/
def afterRequest (strtod : Bytes → Double × Nat) (cmd : List Bytes)
    (clock : Clock) (db : Database) : Database :=
  ((doRequest strtod cmd db [] clock).map Prod.fst).getD db

theorem DatabaseReachable.tail (h : DatabaseReachable strtod db)
    (hstep : DatabaseStep strtod db action db') : DatabaseReachable strtod db' := by
  obtain ⟨pool, hpool, hrun⟩ := h
  exact ⟨pool, hpool, hrun.tail ⟨action, hstep⟩⟩

theorem DatabaseReachable.request (h : DatabaseReachable strtod db)
    (cmd : List Bytes) (clock : Clock) :
    DatabaseReachable strtod (afterRequest strtod cmd clock db) := by
  cases hresult : doRequest strtod cmd db [] clock with
  | none =>
      rw [afterRequest, hresult]
      exact h
  | some result =>
      rw [afterRequest, hresult]
      exact h.tail (.request cmd [] clock hresult)

theorem DatabaseReachable.empty : DatabaseReachable strtod {} :=
  ⟨none, .inl rfl, .refl⟩

def timedKey : Database :=
  afterRequest (fun _ => ({}, 0)) [ascii "PEXPIRE", ascii "a", ascii "5"] ⟨0, 0⟩
    (afterRequest (fun _ => ({}, 0)) [ascii "SET", ascii "a", ascii "x"] ⟨0, 0⟩
      {})

theorem timedKey_reachable :
    DatabaseReachable (fun _ => ({}, 0)) timedKey :=
  (DatabaseReachable.empty.request _ _).request _ _

theorem timedKey_nodes : timedKey.map.nodes = [0] := by decide +kernel

theorem database_structures_agree_timed :
    timedKey.ttl.items.length = 1 ∧
      (timedKey.map.nodes.map timedKey.key).Nodup :=
  ⟨by decide +kernel, (database_structures_agree timedKey_reachable).1⟩

end MiniRedis.Server
