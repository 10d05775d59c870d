import MiniRedis.Data.MachineInt
import MiniRedis.Ds.Heap
import MiniRedis.Ds.ZSet

namespace MiniRedis.Store

open MiniRedis.Data MiniRedis.Ds

/-! The keyspace: entries linked into a hash map by key, and the heap of their
timers.  Entries live in a memory of their own, where an allocation takes an
address never used before; a freed address holds nothing, and reading it is
`none`. -/

inductive EntryType
  | str
  | zset
  deriving DecidableEq

structure Entry where
  hcode : UInt64 := 0
  key : Bytes := []
  type : EntryType := .str
  str : Bytes := []
  zset : ZSet := {}

/-- The teardown tasks of the worker pool: those waiting in order, and those a
worker has taken. -/
structure Pool where
  queue : List Ptr := []
  running : List Ptr := []

/-- `ttl.index` holds the `heap_idx` fields of the entries. -/
structure Database where
  map : HMap Ptr := {}
  ttl : Heap Ptr := {}
  pool : Option Pool := none
  ent : Ptr → Option Entry := fun _ => none
  alloc : Nat := 0

namespace Database

def hcode (db : Database) (p : Ptr) : UInt64 :=
  ((db.ent p).map Entry.hcode).getD 0

def key (db : Database) (p : Ptr) : Bytes :=
  ((db.ent p).map Entry.key).getD []

def setEntry (db : Database) (p : Ptr) (ent : Option Entry) : Database :=
  { db with ent := fun q => if q = p then ent else db.ent q }

/-- `new Entry()` with its fields assigned. -/
def newEntry (db : Database) (ent : Entry) : Database × Ptr :=
  let p := db.alloc
  let db := db.setEntry p (some ent)
  ({ db with
      ttl := { db.ttl with index := db.ttl.index.write p none }
      alloc := p + 1 }, p)

end Database

/-- The entry comparison of a probe: equal keys. -/
def entryEq (db : Database) (code : UInt64) (key : Bytes) : Probe Ptr where
  hcode := code
  eq := fun p => db.key p == key

/-- The identity comparison of a probe that is the node itself. -/
def hnodeSame (code : UInt64) (node : Ptr) : Probe Ptr where
  hcode := code
  eq := fun p => p == node

def entrySetTtl (db : Database) (ent : Ptr) (ttlMs : Int) (now : UInt64) :
    Option Database :=
  if ttlMs < 0 then
    match db.ttl.index.idx ent with
    | some i => do
        let ttl ← heapDelete db.ttl i
        some { db with ttl := { ttl with index := ttl.index.write ent none } }
    | none => some db
  else do
    let expireAt := addUInt64 now.toNat (castUInt64 ttlMs)
    let ttl ← heapUpsert db.ttl (db.ttl.index.idx ent) ⟨expireAt, ent⟩
    some { db with ttl := ttl }

/-- The value teardown of `entry_del_sync`. -/
def Entry.clear (e : Entry) : Option Entry :=
  if e.type = .zset then do
    let zset ← zsetClear e.zset
    some { e with zset := zset }
  else
    some e

def entryDelSync (db : Database) (ent : Ptr) : Option Database := do
  let e ← db.ent ent
  let _ ← e.clear
  some (db.setEntry ent none)

def kLargeContainerSize : Nat := 1000

def Entry.setSize (e : Entry) : Nat :=
  if e.type = .zset then hmSize e.zset.hmap else 0

/-- The timer goes first; a large set is queued for a worker, anything else is
freed at once.  Dropping a timer does not read the clock. -/
def entryDel (db : Database) (ent : Ptr) : Option Database := do
  let db ← entrySetTtl db ent (-1) 0
  let e ← db.ent ent
  match db.pool with
  | some pool =>
      if e.setSize > kLargeContainerSize then
        some { db with pool := some { pool with queue := pool.queue ++ [ent] } }
      else
        entryDelSync db ent
  | none => entryDelSync db ent

/-! The worker threads. -/

/-- A worker takes the front task. -/
def workerTake (db : Database) : Option Database :=
  match db.pool with
  | some ⟨ent :: queue, running⟩ =>
      some { db with pool := some ⟨queue, ent :: running⟩ }
  | _ => some db

/-- The worker that runs the task of `ent` finishes it. -/
def workerFinish (db : Database) (ent : Ptr) : Option Database :=
  match db.pool with
  | some pool =>
      if ent ∈ pool.running then
        entryDelSync
          { db with pool := some { pool with running := pool.running.erase ent } }
          ent
      else
        some db
  | none => some db

/-! The key half of `process_timers`. -/

def kMaxWorks : Nat := 2000

/-- One pass of the reaping loop, for the item at the root. -/
def reapEntry (db : Database) (ent : Ptr) : Option Database := do
  let e ← db.ent ent
  let (map, _) ← hmDelete db.hcode db.map (hnodeSame e.hcode ent)
  entryDel { db with map := map } ent

def reapLoop (now : UInt64) : Nat → Database → Option Database
  | 0, db => some db
  | works + 1, db =>
      match db.ttl.items.head? with
      | some item =>
          if item.val ≤ now.toNat then do
            let db ← reapEntry db item.ref
            reapLoop now works db
          else
            some db
      | none => some db

def reapKeys (now : UInt64) (db : Database) : Option Database :=
  reapLoop now kMaxWorks db

end MiniRedis.Store
