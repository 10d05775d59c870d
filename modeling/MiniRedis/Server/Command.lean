import MiniRedis.Protocol.Serialize
import MiniRedis.Store.Database

namespace MiniRedis.Server

open MiniRedis.Data MiniRedis.Ds MiniRedis.Store MiniRedis.Protocol

/-! Command execution.  A handler takes the argument vector, the database, the
reply buffer and the clock readings of the call; a result `none` is an access
out of range, a freed entry or an overflow. -/

def ascii (s : String) : Bytes := s.toList.map fun c => UInt8.ofNat c.toNat

/-- The readings of one call: that of `lookup_entry`, and the one after it. -/
structure Clock where
  lookup : UInt64
  act : UInt64

def wrongtypeMsg : Bytes :=
  ascii "WRONGTYPE Operation against a key holding the wrong kind of value"

def toUpper (s : Bytes) : Bytes :=
  s.map fun c => if 97 ≤ c ∧ c ≤ 122 then c - 32 else c

/-- `hm_delete(&db.map, &ent->node, &entry_eq); entry_del(db, ent);` -/
def dropEntry (db : Database) (ent : Ptr) : Option Database := do
  let e ← db.ent ent
  let (map, _) ← hmDelete db.hcode db.map (entryEq db e.hcode e.key)
  entryDel { db with map := map } ent

/-- An overdue key is deleted on sight and reported as absent. -/
def lookupEntry (db : Database) (key : Bytes) (now : UInt64) :
    Option (Database × Option Ptr) := do
  let (map, found) ← hmLookup db.hcode db.map (entryEq db (strHash key) key)
  let db := { db with map := map }
  match found with
  | none => some (db, none)
  | some ent =>
      match db.ttl.index.idx ent with
      | none => some (db, some ent)
      | some i => do
          let item ← db.ttl.items[i]?
          if item.val ≤ now.toNat then do
            let db ← dropEntry db ent
            some (db, none)
          else
            some (db, some ent)

/-! The numeric parsers.  The library functions see the bytes up to the first
NUL and answer the value with the offset of `end`. -/

/-- `s.c_str()` as a C string. -/
def cStr (s : Bytes) : Bytes := s.takeWhile fun c => c != 0

/-- The byte at offset `pos` of `s.c_str()` is NUL. -/
def endsAt (s : Bytes) (pos : Nat) : Bool := (s ++ [0])[pos]? == some 0

def isSpace (c : UInt8) : Bool := c == 32 || (9 ≤ c && c ≤ 13)

def isDigit (c : UInt8) : Bool := 48 ≤ c && c ≤ 57

def digitsValue (digits : Bytes) : Nat :=
  digits.foldl (fun value c => value * 10 + (c.toNat - 48)) 0

def clampInt64 (value : Int) : Int := max int64Min (min value int64Max)

def signLength (s : Bytes) : Nat :=
  match s with
  | c :: _ => if c = 43 ∨ c = 45 then 1 else 0
  | [] => 0

def strtoll (s : Bytes) : Int × Nat :=
  let rest := s.dropWhile isSpace
  let sign := signLength rest
  let digits := (rest.drop sign).takeWhile isDigit
  if digits.isEmpty then
    (0, 0)
  else
    let value : Int := digitsValue digits
    (clampInt64 (if rest.head? = some 45 then -value else value),
      s.length - rest.length + sign + digits.length)

def str2int (s : Bytes) : Option Int :=
  if s.isEmpty then
    none
  else
    let (out, stop) := strtoll (cStr s)
    if endsAt s stop then some out else none

/-- `strtod` is the library's, whatever it computes. -/
def str2dbl (strtod : Bytes → Double × Nat) (s : Bytes) : Option Double :=
  if s.isEmpty then
    none
  else
    let (out, stop) := strtod (cStr s)
    if endsAt s stop ∧ out.isNaN = false then some out else none

/-! String commands. -/

def doGet (cmd : List Bytes) (db : Database) (out : Bytes) (clock : Clock) :
    Option (Database × Bytes) := do
  let key ← cmd[1]?
  let (db, ent) ← lookupEntry db key clock.lookup
  match ent with
  | none => some (db, outNil out)
  | some ent => do
      let e ← db.ent ent
      if e.type ≠ .str then
        some (db, outErr out errType wrongtypeMsg)
      else
        some (db, outStr out e.str)

/-- `new Entry()` for `key`, linked into the map. -/
def createEntry (db : Database) (e : Entry) : Option (Database × Ptr) := do
  let (db, ent) := db.newEntry e
  let map ← hmInsert db.hcode db.map ent
  some ({ db with map := map }, ent)

def doSet (cmd : List Bytes) (db : Database) (out : Bytes) (clock : Clock) :
    Option (Database × Bytes) := do
  let key ← cmd[1]?
  let value ← cmd[2]?
  let (db, ent) ← lookupEntry db key clock.lookup
  match ent with
  | some ent => do
      let e ← db.ent ent
      if e.type ≠ .str then
        some (db, outErr out errType wrongtypeMsg)
      else do
        let db := db.setEntry ent (some { e with str := value })
        let db ← entrySetTtl db ent (-1) clock.act
        some (db, outNil out)
  | none => do
      let (db, _) ← createEntry db
        { hcode := strHash key, key := key, type := .str, str := value }
      some (db, outNil out)

def doDel (cmd : List Bytes) (db : Database) (out : Bytes) (clock : Clock) :
    Option (Database × Bytes) := do
  let key ← cmd[1]?
  let (db, ent) ← lookupEntry db key clock.lookup
  match ent with
  | some ent => do
      let db ← dropEntry db ent
      some (db, outInt out 1)
  | none => some (db, outInt out 0)

def keysCb (db : Database) (node : Ptr) (out : Bytes) : Bool × Bytes :=
  (true, outStr out (db.key node))

def doKeys (db : Database) (out : Bytes) : Option (Database × Bytes) := do
  let out ← hmForeach (keysCb db) db.map (outArr out (hmSize db.map))
  some (db, out)

/-! TTL commands. -/

def doExpire (unitMs : Int) (cmd : List Bytes) (db : Database) (out : Bytes)
    (clock : Clock) : Option (Database × Bytes) := do
  let arg ← cmd[2]?
  match str2int arg with
  | none => some (db, outErr out errArg (ascii "value is not an integer"))
  | some n => do
      let key ← cmd[1]?
      let (db, ent) ← lookupEntry db key clock.lookup
      match ent with
      | none => some (db, outInt out 0)
      | some ent =>
          if n ≤ 0 then do
            let db ← dropEntry db ent
            some (db, outInt out 1)
          else do
            let n := if n > int64Max / unitMs then int64Max / unitMs else n
            let ttlMs ← checkedInt64 (n * unitMs)
            let db ← entrySetTtl db ent ttlMs clock.act
            some (db, outInt out 1)

def doTtl (inMs : Bool) (cmd : List Bytes) (db : Database) (out : Bytes)
    (clock : Clock) : Option (Database × Bytes) := do
  let key ← cmd[1]?
  let (db, ent) ← lookupEntry db key clock.lookup
  match ent with
  | none => some (db, outInt out (-2))
  | some ent =>
      match db.ttl.index.idx ent with
      | none => some (db, outInt out (-1))
      | some i => do
          let item ← db.ttl.items[i]?
          let now := clock.act.toNat
          let rem := if item.val > now then item.val - now else 0
          some (db, outInt out (castInt64
            (if inMs then rem else addUInt64 rem 999 / 1000)))

def doPersist (cmd : List Bytes) (db : Database) (out : Bytes)
    (clock : Clock) : Option (Database × Bytes) := do
  let key ← cmd[1]?
  let (db, ent) ← lookupEntry db key clock.lookup
  match ent with
  | none => some (db, outInt out 0)
  | some ent =>
      match db.ttl.index.idx ent with
      | none => some (db, outInt out 0)
      | some _ => do
          let db ← entrySetTtl db ent (-1) clock.act
          some (db, outInt out 1)

/-! Sorted-set commands. -/

/-- What `expect_zset` leaves: the entry if the key holds a set, and `missing`.
An error reply is already in `out` when there is neither. -/
structure Expected where
  db : Database
  out : Bytes
  ent : Option Ptr
  missing : Bool

def expectZset (db : Database) (key : Bytes) (out : Bytes) (now : UInt64) :
    Option Expected := do
  let (db, ent) ← lookupEntry db key now
  match ent with
  | none => some ⟨db, out, none, true⟩
  | some ent => do
      let e ← db.ent ent
      if e.type ≠ .zset then
        some ⟨db, outErr out errType wrongtypeMsg, none, false⟩
      else
        some ⟨db, out, some ent, false⟩

/-- `zset_insert` on the set of `ent`, and the reply. -/
def zaddInto (db : Database) (ent : Ptr) (name : Bytes) (score : Double)
    (out : Bytes) : Option (Database × Bytes) := do
  let e ← db.ent ent
  let (zset, added) ← zsetInsert e.zset name score
  some (db.setEntry ent (some { e with zset := zset }),
    outInt out (if added then 1 else 0))

def doZadd (strtod : Bytes → Double × Nat) (cmd : List Bytes) (db : Database)
    (out : Bytes) (clock : Clock) : Option (Database × Bytes) := do
  let arg ← cmd[2]?
  match str2dbl strtod arg with
  | none => some (db, outErr out errArg (ascii "value is not a valid float"))
  | some score => do
      let key ← cmd[1]?
      let name ← cmd[3]?
      let ⟨db, out, ent, missing⟩ ← expectZset db key out clock.lookup
      match ent with
      | some ent => zaddInto db ent name score out
      | none =>
          if !missing then
            some (db, out)
          else do
            let (db, ent) ← createEntry db
              { hcode := strHash key, key := key, type := .zset }
            zaddInto db ent name score out

/-- `zset_delete` of the node found, if any. -/
def zremFound (zset : ZSet) (znode : Option Ptr) : Option ZSet :=
  match znode with
  | some node => zsetDelete zset node
  | none => some zset

def doZrem (cmd : List Bytes) (db : Database) (out : Bytes) (clock : Clock) :
    Option (Database × Bytes) := do
  let key ← cmd[1]?
  let name ← cmd[2]?
  let ⟨db, out, ent, missing⟩ ← expectZset db key out clock.lookup
  match ent with
  | none => some (db, if missing then outInt out 0 else out)
  | some ent => do
      let e ← db.ent ent
      let (zset, znode) ← zsetLookup e.zset name
      let zset ← zremFound zset znode
      some (db.setEntry ent (some { e with zset := zset }),
        outInt out (if znode.isSome then 1 else 0))

def doZscore (cmd : List Bytes) (db : Database) (out : Bytes)
    (clock : Clock) : Option (Database × Bytes) := do
  let key ← cmd[1]?
  let name ← cmd[2]?
  let ⟨db, out, ent, missing⟩ ← expectZset db key out clock.lookup
  match ent with
  | none => some (db, if missing then outNil out else out)
  | some ent => do
      let e ← db.ent ent
      let (zset, znode) ← zsetLookup e.zset name
      let db := db.setEntry ent (some { e with zset := zset })
      match znode with
      | some node => some (db, outDbl out (zset.node node).score)
      | none => some (db, outNil out)

/-- The emitting loop of `do_zquery`, with its element count. -/
def zqueryLoop (zset : ZSet) (limit : Int) :
    Nat → Option Ptr → Int → Bytes → Option (Int × Bytes)
  | _, none, n, out => some (n, out)
  | 0, some _, _, _ => none
  | fuel + 1, some znode, n, out =>
      if n < limit then do
        let out := outStr out (zset.node znode).name
        let out := outDbl out (zset.node znode).score
        let next ← znodeOffset zset (some znode) 1
        let n ← checkedInt64 (n + 2)
        zqueryLoop zset limit fuel next n out
      else
        some (n, out)

def zqueryReply (zset : ZSet) (score : Double) (name : Bytes)
    (offset limit : Int) (out : Bytes) : Option Bytes := do
  let znode ← zsetSeekge zset score name
  let znode ← znodeOffset zset znode offset
  let (out, ctx) := outBeginArr out
  let (n, out) ← zqueryLoop zset limit (zset.alloc + 1) znode 0 out
  outEndArr out ctx n.toNat

def doZquery (strtod : Bytes → Double × Nat) (cmd : List Bytes)
    (db : Database) (out : Bytes) (clock : Clock) :
    Option (Database × Bytes) := do
  let arg ← cmd[2]?
  match str2dbl strtod arg with
  | none => some (db, outErr out errArg (ascii "value is not a valid float"))
  | some score => do
      let offset ← cmd[4]?
      let limit ← cmd[5]?
      match str2int offset, str2int limit with
      | some offset, some limit => do
          let key ← cmd[1]?
          let name ← cmd[3]?
          let ⟨db, out, ent, missing⟩ ← expectZset db key out clock.lookup
          match ent with
          | none => some (db, if missing then outArr out 0 else out)
          | some ent =>
              if limit ≤ 0 then
                some (db, outArr out 0)
              else do
                let e ← db.ent ent
                let out ← zqueryReply e.zset score name offset limit out
                some (db, out)
      | _, _ => some (db, outErr out errArg (ascii "value is not an integer"))

/-! Dispatch. -/

inductive Handler
  | get
  | set
  | del
  | keys
  | expire (unitMs : Int)
  | ttl (inMs : Bool)
  | persist
  | zadd
  | zrem
  | zscore
  | zquery

/-- One test of the dispatcher: a verb, its arity and its handler. -/
structure Verb where
  name : Bytes
  size : Nat
  handler : Handler

def verbs : List Verb :=
  [⟨ascii "GET", 2, .get⟩,
    ⟨ascii "SET", 3, .set⟩,
    ⟨ascii "DEL", 2, .del⟩,
    ⟨ascii "KEYS", 1, .keys⟩,
    ⟨ascii "EXPIRE", 3, .expire 1000⟩,
    ⟨ascii "PEXPIRE", 3, .expire 1⟩,
    ⟨ascii "TTL", 2, .ttl false⟩,
    ⟨ascii "PTTL", 2, .ttl true⟩,
    ⟨ascii "PERSIST", 2, .persist⟩,
    ⟨ascii "ZADD", 4, .zadd⟩,
    ⟨ascii "ZREM", 3, .zrem⟩,
    ⟨ascii "ZSCORE", 3, .zscore⟩,
    ⟨ascii "ZQUERY", 6, .zquery⟩]

/-- The first test that holds. -/
def dispatch (op : Bytes) (size : Nat) : Option Handler :=
  (verbs.find? fun verb => op == verb.name && size == verb.size).map
    Verb.handler

def Handler.run (strtod : Bytes → Double × Nat) (handler : Handler)
    (cmd : List Bytes) (db : Database) (out : Bytes) (clock : Clock) :
    Option (Database × Bytes) :=
  match handler with
  | .get => doGet cmd db out clock
  | .set => doSet cmd db out clock
  | .del => doDel cmd db out clock
  | .keys => doKeys db out
  | .expire unitMs => doExpire unitMs cmd db out clock
  | .ttl inMs => doTtl inMs cmd db out clock
  | .persist => doPersist cmd db out clock
  | .zadd => doZadd strtod cmd db out clock
  | .zrem => doZrem cmd db out clock
  | .zscore => doZscore cmd db out clock
  | .zquery => doZquery strtod cmd db out clock

def doRequest (strtod : Bytes → Double × Nat) (cmd : List Bytes)
    (db : Database) (out : Bytes) (clock : Clock) :
    Option (Database × Bytes) :=
  match cmd with
  | [] => some (db, outErr out errArg (ascii "empty command"))
  | verb :: _ =>
      match dispatch (toUpper verb) cmd.length with
      | some handler => handler.run strtod cmd db out clock
      | none => some (db, outErr out errUnknown (ascii "unknown command"))

end MiniRedis.Server
