import MiniRedis.Server.Request
import Mathlib.Logic.Function.Basic

namespace MiniRedis.Server

open MiniRedis.Data MiniRedis.Store MiniRedis.Protocol

/-! What the keyspace is for: a map from keys to values with optional deadlines,
on which each request acts at the time it is made. -/

/-- A byte string, or a map from members to scores; a score is a number's place
in the order of the doubles. -/
inductive Val
  | str (s : Bytes)
  | zset (scores : Bytes → Option Int)

abbrev Cell := Option (Val × Option Nat)

abbrev Keyspace := Bytes → Cell

def liveCell (now : UInt64) (cell : Cell) : Cell :=
  cell.filter fun content => !overdue now content.2

inductive Reply
  | nil
  | err (code : Nat) (msg : Bytes)
  | str (s : Bytes)
  | int (x : Int)
  | score (x : Int)

def wrongtypeReply : Reply := .err errType wrongtypeMsg

/-- The sum is a `uint64_t`. -/
def expiryDeadline (now : UInt64) (unitMs n : Int) : Nat :=
  addUInt64 now.toNat (min n (int64Max / unitMs) * unitMs).toNat

def timeLeft (inMs : Bool) (now : UInt64) (deadline : Nat) : Int :=
  if inMs then deadline - now.toNat else (deadline - now.toNat + 999) / 1000

def Op.spec (op : Op) (now : UInt64) (cell : Cell) : Cell × Option Reply :=
  match op, cell with
  | .get, none => (none, some .nil)
  | .get, some (.str s, due) => (some (.str s, due), some (.str s))
  | .get, some (.zset scores, due) =>
      (some (.zset scores, due), some wrongtypeReply)
  | .set _, some (.zset scores, due) =>
      (some (.zset scores, due), some wrongtypeReply)
  | .set value, _ => (some (.str value, none), some .nil)
  | .del, none => (none, some (.int 0))
  | .del, some _ => (none, some (.int 1))
  | .expire _ _, none => (none, some (.int 0))
  | .expire unitMs n, some (val, _) =>
      if n ≤ 0 then (none, some (.int 1))
      else (some (val, some (expiryDeadline now unitMs n)), some (.int 1))
  | .ttl _, none => (none, some (.int (-2)))
  | .ttl _, some (val, none) => (some (val, none), some (.int (-1)))
  | .ttl inMs, some (val, some deadline) =>
      (some (val, some deadline), some (.int (timeLeft inMs now deadline)))
  | .persist, none => (none, some (.int 0))
  | .persist, some (val, none) => (some (val, none), some (.int 0))
  | .persist, some (val, some _) => (some (val, none), some (.int 1))
  | .zadd _ _, some (.str s, due) => (some (.str s, due), some wrongtypeReply)
  | .zadd score name, none =>
      (some (.zset (Function.update (fun _ => none) name (some score.key)),
        none), some (.int 1))
  | .zadd score name, some (.zset scores, due) =>
      (some (.zset (Function.update scores name (some score.key)), due),
        some (.int (if scores name = none then 1 else 0)))
  | .zrem _, none => (none, some (.int 0))
  | .zrem _, some (.str s, due) => (some (.str s, due), some wrongtypeReply)
  | .zrem name, some (.zset scores, due) =>
      (some (.zset (Function.update scores name none), due),
        some (.int (if (scores name).isSome then 1 else 0)))
  | .zscore _, none => (none, some .nil)
  | .zscore _, some (.str s, due) => (some (.str s, due), some wrongtypeReply)
  | .zscore name, some (.zset scores, due) =>
      (some (.zset scores, due),
        some (match scores name with
          | some score => .score score
          | none => .nil))
  | .zquery _ _ _ _, cell => (cell, none)

/-- A request at time `now`; the replies of `KEYS` and `ZQUERY` are left
open. -/
def Keyspace.exec (keyspace : Keyspace) (now : UInt64) (request : Request) :
    Keyspace × Option Reply :=
  match request with
  | .reject code msg => (keyspace, some (.err code msg))
  | .keys => (keyspace, none)
  | .on key op =>
      let (cell, reply) := op.spec now (liveCell now (keyspace key))
      (Function.update keyspace key cell, reply)

end MiniRedis.Server
