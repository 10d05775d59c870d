import MiniRedis.Protocol.Wire
import MiniRedis.Server.Command

namespace MiniRedis.Server

open MiniRedis.Data MiniRedis.Ds MiniRedis.Store MiniRedis.Protocol

/-! One client connection: its buffers, the requests in them and the replies.
The results of `read` and `write` and the clock readings are arguments. -/

structure Conn where
  fd : Nat
  wantRead : Bool := false
  wantWrite : Bool := false
  wantClose : Bool := false
  incoming : Bytes := []
  outgoing : Bytes := []
  lastActiveMs : UInt64 := 0

structure Exchange where
  body : Bytes
  clock : Clock
  resp : Bytes

def badRequest : Bytes := outErr [] errArg (ascii "bad request")

/-- The reply to a frame's body, malformed or not. -/
def respond (strtod : Bytes → Double × Nat) (body : Bytes) (db : Database)
    (clock : Clock) : Option (Database × Bytes) := do
  let (status, cmd) ← parseReq body []
  if status ≠ 0 then
    some (db, badRequest)
  else
    doRequest strtod cmd db [] clock

/-- Where `try_one_request` returns true, the request it processed. -/
def tryOneRequest (strtod : Bytes → Double × Nat) (c : Conn) (db : Database)
    (clock : Clock) : Option (Conn × Database × Option Exchange) :=
  if c.incoming.length < 4 then
    some (c, db, none)
  else do
    let len ← readU32 c.incoming 0
    if len > maxMsg then
      some ({ c with wantClose := true }, db, none)
    else if c.incoming.length < 4 + len then
      some (c, db, none)
    else do
      let body ← readBytes c.incoming 4 len
      let (db, resp) ← respond strtod body db clock
      let outgoing := c.outgoing ++ writeU32 resp.length
      let outgoing := outgoing ++ resp
      let incoming := c.incoming.drop (4 + len)
      some ({ c with outgoing := outgoing, incoming := incoming }, db,
        some ⟨body, clock, resp⟩)

/-- `while(try_one_request(c)){}`, from its `i`-th call on. -/
def drainRequests (strtod : Bytes → Double × Nat) (clocks : Nat → Clock) :
    Nat → Nat → Conn → Database → Option (Conn × Database × List Exchange)
  | 0, _, _, _ => none
  | fuel + 1, i, c, db => do
      let (c, db, processed) ← tryOneRequest strtod c db (clocks i)
      match processed with
      | none => some (c, db, [])
      | some exchange => do
          let (c, db, exchanges) ←
            drainRequests strtod clocks fuel (i + 1) c db
          some (c, db, exchange :: exchanges)

/-- What `read` answered: `EAGAIN`, another error, or the bytes it delivered,
none of them at the end of the stream. -/
inductive ReadResult
  | again
  | failed
  | bytes (chunk : Bytes)

def kReadSize : Nat := 64 * 1024

def ReadResult.chunk : ReadResult → Bytes
  | .bytes chunk => chunk
  | _ => []

def handleRead (strtod : Bytes → Double × Nat) (c : Conn) (db : Database)
    (input : ReadResult) (clocks : Nat → Clock) :
    Option (Conn × Database × List Exchange) :=
  match input with
  | .again => some (c, db, [])
  | .failed => some ({ c with wantClose := true }, db, [])
  | .bytes [] => some ({ c with wantClose := true }, db, [])
  | .bytes chunk => do
      let c := { c with incoming := c.incoming ++ chunk }
      let (c, db, exchanges) ←
        drainRequests strtod clocks (c.incoming.length + 1) 0 c db
      if c.outgoing ≠ [] then
        some ({ c with wantRead := false, wantWrite := true }, db, exchanges)
      else
        some (c, db, exchanges)

inductive WriteResult
  | again
  | failed
  | wrote (count : Nat)

/-- The connection with the bytes that `write` accepted; it cannot accept more
than it was given. -/
def handleWrite (c : Conn) (input : WriteResult) : Option (Conn × Bytes) :=
  if c.outgoing = [] then
    some (c, [])
  else
    match input with
    | .again => some (c, [])
    | .failed => some ({ c with wantClose := true }, [])
    | .wrote count =>
        if count ≤ c.outgoing.length then
          let sent := c.outgoing.take count
          let c := { c with outgoing := c.outgoing.drop count }
          if c.outgoing = [] then
            some ({ c with wantRead := true, wantWrite := false }, sent)
          else
            some (c, sent)
        else
          none

end MiniRedis.Server
