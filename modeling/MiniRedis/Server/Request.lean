import MiniRedis.Server.Command
import MiniRedis.Store.DatabaseOps

namespace MiniRedis.Server

open MiniRedis.Data MiniRedis.Ds MiniRedis.Store MiniRedis.Protocol

/-! What a request asks for, and what it does to the slot of its key. -/

inductive Op
  | get
  | set (value : Bytes)
  | del
  | expire (unitMs n : Int)
  | ttl (inMs : Bool)
  | persist
  | zadd (score : Double) (name : Bytes)
  | zrem (name : Bytes)
  | zscore (name : Bytes)
  | zquery (score : Double) (name : Bytes) (offset limit : Int)

/-- The scores of an operation are numbers, its time unit is positive. -/
def Op.Valid : Op → Prop
  | .expire unitMs _ => 0 < unitMs
  | .zadd score _ => score.isNaN = false
  | .zquery score _ _ _ => score.isNaN = false
  | _ => True

inductive Request
  | reject (code : Nat) (msg : Bytes)
  | keys
  | on (key : Bytes) (op : Op)

def notAnInteger : Request := .reject errArg (ascii "value is not an integer")

def notAFloat : Request := .reject errArg (ascii "value is not a valid float")

def Request.ofCmd (strtod : Bytes → Double × Nat) (cmd : List Bytes) :
    Request :=
  match cmd with
  | [] => .reject errArg (ascii "empty command")
  | verb :: args =>
      match dispatch (toUpper verb) cmd.length, args with
      | some .keys, [] => .keys
      | some .get, [key] => .on key .get
      | some .set, [key, value] => .on key (.set value)
      | some .del, [key] => .on key .del
      | some (.expire unitMs), [key, arg] =>
          match str2int arg with
          | some n => .on key (.expire unitMs n)
          | none => notAnInteger
      | some (.ttl inMs), [key] => .on key (.ttl inMs)
      | some .persist, [key] => .on key .persist
      | some .zadd, [key, arg, name] =>
          match str2dbl strtod arg with
          | some score => .on key (.zadd score name)
          | none => notAFloat
      | some .zrem, [key, name] => .on key (.zrem name)
      | some .zscore, [key, name] => .on key (.zscore name)
      | some .zquery, [key, arg, name, offset, limit] =>
          match str2dbl strtod arg, str2int offset, str2int limit with
          | some score, some offset, some limit =>
              .on key (.zquery score name offset limit)
          | some _, _, _ => notAnInteger
          | none, _, _ => notAFloat
      | _, _ => .reject errUnknown (ascii "unknown command")

def wrongtype : Value := .err errType wrongtypeMsg

def stringEntry (key value : Bytes) : Entry where
  hcode := strHash key
  key := key
  type := .str
  str := value

def zsetEntry (key : Bytes) : Entry where
  hcode := strHash key
  key := key
  type := .zset

def clampedTtl (unitMs n : Int) : Int :=
  (if n > int64Max / unitMs then int64Max / unitMs else n) * unitMs

def remaining (inMs : Bool) (now : UInt64) (deadline : Nat) : Int :=
  let rem := if deadline > now.toNat then deadline - now.toNat else 0
  castInt64 (if inMs then rem else addUInt64 rem 999 / 1000)

/-- A sorted-set command on a live slot: what it does without the key, and
what it does to the set. -/
def onZset (missing : Option (Slot × Value))
    (act : Entry → Option (Entry × Value)) : Slot → Option (Slot × Value)
  | none => missing
  | some (e, due) =>
      if e.type ≠ .zset then
        some (some (e, due), wrongtype)
      else do
        let (e, reply) ← act e
        some (some (e, due), reply)

def zaddEntry (name : Bytes) (score : Double) (e : Entry) :
    Option (Entry × Value) := do
  let (zset, added) ← zsetInsert e.zset name score
  some ({ e with zset := zset }, .int (if added then 1 else 0))

def zremEntry (name : Bytes) (e : Entry) : Option (Entry × Value) := do
  let (zset, znode) ← zsetLookup e.zset name
  let zset ← zremFound zset znode
  some ({ e with zset := zset }, .int (if znode.isSome then 1 else 0))

def zscoreEntry (name : Bytes) (e : Entry) : Option (Entry × Value) := do
  let (zset, znode) ← zsetLookup e.zset name
  match znode with
  | some node => some ({ e with zset := zset }, .dbl (zset.node node).score)
  | none => some ({ e with zset := zset }, .nil)

def zqueryItems (zset : ZSet) (limit : Int) :
    Nat → Option Ptr → Int → Option (List Value)
  | _, none, _ => some []
  | 0, some _, _ => none
  | fuel + 1, some znode, n =>
      if n < limit then do
        let next ← znodeOffset zset (some znode) 1
        let n ← checkedInt64 (n + 2)
        let items ← zqueryItems zset limit fuel next n
        some (.str (zset.node znode).name :: .dbl (zset.node znode).score ::
          items)
      else
        some []

def zqueryEntry (score : Double) (name : Bytes) (offset limit : Int)
    (e : Entry) : Option (Entry × Value) :=
  if limit ≤ 0 then
    some (e, .arr [])
  else do
    let znode ← zsetSeekge e.zset score name
    let znode ← znodeOffset e.zset znode offset
    let items ← zqueryItems e.zset limit (e.zset.alloc + 1) znode 0
    some (e, .arr items)

/-- What an operation does to the live slot of its key, and its reply. -/
def Op.act (op : Op) (key : Bytes) (now : UInt64) (slot : Slot) :
    Option (Slot × Value) :=
  match op, slot with
  | .get, none => some (none, .nil)
  | .get, some (e, due) =>
      some (some (e, due), if e.type ≠ .str then wrongtype else .str e.str)
  | .set value, none => some (some (stringEntry key value, none), .nil)
  | .set value, some (e, due) =>
      if e.type ≠ .str then some (some (e, due), wrongtype)
      else some (some ({ e with str := value }, none), .nil)
  | .del, none => some (none, .int 0)
  | .del, some _ => some (none, .int 1)
  | .expire _ _, none => some (none, .int 0)
  | .expire unitMs n, some (e, _) =>
      if n ≤ 0 then some (none, .int 1)
      else some (some (e, deadlineAfter (clampedTtl unitMs n) now), .int 1)
  | .ttl _, none => some (none, .int (-2))
  | .ttl _, some (e, none) => some (some (e, none), .int (-1))
  | .ttl inMs, some (e, some due) =>
      some (some (e, some due), .int (remaining inMs now due))
  | .persist, none => some (none, .int 0)
  | .persist, some (e, none) => some (some (e, none), .int 0)
  | .persist, some (e, some _) => some (some (e, none), .int 1)
  | .zadd score name, slot =>
      onZset (do
        let (e, reply) ← zaddEntry name score (zsetEntry key)
        some (some (e, none), reply)) (zaddEntry name score) slot
  | .zrem name, slot =>
      onZset (some (none, .int 0)) (zremEntry name) slot
  | .zscore name, slot =>
      onZset (some (none, .nil)) (zscoreEntry name) slot
  | .zquery score name offset limit, slot =>
      onZset (some (none, .arr [])) (zqueryEntry score name offset limit) slot

end MiniRedis.Server
