import MiniRedis.Server.Dispatch
import MiniRedis.Server.Streams

namespace MiniRedis.EventLoop

open MiniRedis.Data MiniRedis.Ds MiniRedis.Store MiniRedis.Protocol
open MiniRedis.Server

/-! The requests of a run in the order in which they were executed, and the
readings of the clock. -/

variable {strtod : Bytes → Double × Nat} {trace : List Event}
  {db db' : Database}

def requestOf (strtod : Bytes → Double × Nat) (body : Bytes) : Request :=
  match parseReq body [] with
  | some (0, cmd) => Request.ofCmd strtod cmd
  | _ => .reject errArg (ascii "bad request")

theorem requestOf_parsed {body : Bytes} {cmd : List Bytes}
    (h : parseReq body [] = some (0, cmd)) :
    requestOf strtod body = Request.ofCmd strtod cmd := by
  simp [requestOf, h]

theorem requestOf_malformed {body : Bytes}
    (h : ∀ cmd, parseReq body [] ≠ some (0, cmd)) :
    requestOf strtod body = .reject errArg (ascii "bad request") := by
  unfold requestOf
  split
  next cmd hparse => exact absurd hparse (h cmd)
  next => rfl

theorem respond_answers (h : db.Inv) (body : Bytes) (clock : Clock) :
    Answers db [] clock (requestOf strtod body) (respond strtod body db clock) := by
  rcases @respond_cases strtod body db clock with
    ⟨cmd, hparse, heq⟩ | ⟨hmalformed, heq⟩
  · rw [heq, requestOf_parsed hparse]
    exact doRequest_answers h strtod cmd [] clock
  · rw [heq, requestOf_malformed hmalformed]
    exact .reject (.err (by decide) (by decide))

def Event.exchanges : Event → List (Nat × Exchange)
  | .handled fd traffic => traffic.exchanges.map fun exchange => (fd, exchange)
  | _ => []

/-- Every exchange, with its connection, in the order in which the requests were
executed. -/
def history (trace : List Event) : List (Nat × Exchange) :=
  trace.flatMap Event.exchanges

def Exchange.readings (exchange : Exchange) : List UInt64 :=
  [exchange.clock.lookup, exchange.clock.act]

def Event.readings : Event → List UInt64
  | .handled _ traffic => traffic.exchanges.flatMap Exchange.readings
  | .reaped now => [now]
  | _ => []

theorem replayExchange_eq_some {exchange : Exchange} :
    replayExchange strtod db exchange = some db' ↔
      respond strtod exchange.body db exchange.clock =
        some (db', exchange.resp) := by
  rw [replayExchange, Option.bind_eq_bind, Option.bind_eq_some_iff]
  constructor
  · rintro ⟨⟨between, resp⟩, hrespond, hsame⟩
    obtain ⟨hsent, hsame⟩ := Option.ite_none_right_eq_some.mp hsame
    cases hsame
    rw [hrespond, hsent]
  · intro hrespond
    exact ⟨_, hrespond, if_pos rfl⟩

/-- What is kept by a request, by a pass over the timers and by the workers while
the clock does not go back. -/
structure Follows (strtod : Bytes → Double × Nat)
    (motive : Database → List (Nat × Exchange) → List UInt64 → Prop) :
    Prop where
  exchange : ∀ {db db' history past} (fd : Nat) {exchange : Exchange},
    motive db history past →
    (past ++ Exchange.readings exchange).Pairwise (· ≤ ·) →
    respond strtod exchange.body db exchange.clock = some (db', exchange.resp) →
    motive db' (history ++ [(fd, exchange)]) (past ++ Exchange.readings exchange)
  reap : ∀ {db db' history past} {now : UInt64}, motive db history past →
    (past ++ [now]).Pairwise (· ≤ ·) → reapKeys now db = some db' →
    motive db' history (past ++ [now])
  take : ∀ {db db' history past}, motive db history past →
    workerTake db = some db' → motive db' history past
  finish : ∀ {db db' history past} {ent : Ptr}, motive db history past →
    workerFinish db ent = some db' → motive db' history past

namespace Follows

variable {motive : Database → List (Nat × Exchange) → List UInt64 → Prop}
  {past : List UInt64} {before : List (Nat × Exchange)}

theorem exchanges (h : Follows strtod motive) (fd : Nat) {exchanges : List Exchange}
    (hbefore : motive db before past)
    (hclock : (past ++ exchanges.flatMap Exchange.readings).Pairwise (· ≤ ·))
    (hreplay : exchanges.foldlM (replayExchange strtod) db = some db') :
    motive db' (before ++ exchanges.map fun exchange => (fd, exchange))
      (past ++ exchanges.flatMap Exchange.readings) := by
  induction exchanges generalizing db before past with
  | nil =>
      cases hreplay
      rw [List.map_nil, List.flatMap_nil, List.append_nil, List.append_nil]
      exact hbefore
  | cons exchange exchanges ih =>
      rw [List.flatMap_cons, ← List.append_assoc] at hclock ⊢
      obtain ⟨between, hfirst, hreplay⟩ := Option.bind_eq_some_iff.mp hreplay
      have hstep := h.exchange fd hbefore (List.pairwise_append.mp hclock).1
        (replayExchange_eq_some.mp hfirst)
      rw [List.map_cons, List.append_cons]
      exact ih hstep hclock hreplay

theorem event {event : Event} (h : Follows strtod motive)
    (hbefore : motive db before past)
    (hclock : (past ++ event.readings).Pairwise (· ≤ ·))
    (hreplay : replay strtod db event = some db') :
    motive db' (before ++ event.exchanges) (past ++ event.readings) := by
  have hquiet : ∀ {db'}, motive db' before past →
      motive db' (before ++ []) (past ++ []) := by
    intro db' hafter
    rw [List.append_nil, List.append_nil]
    exact hafter
  cases event with
  | accepted fd =>
      cases hreplay
      exact hquiet hbefore
  | handled fd traffic => exact h.exchanges fd hbefore hclock hreplay
  | reaped now =>
      have hafter := h.reap hbefore hclock hreplay
      rw [← List.append_nil before] at hafter
      exact hafter
  | taken => exact hquiet (h.take hbefore hreplay)
  | freed ent => exact hquiet (h.finish hbefore hreplay)

theorem run (h : Follows strtod motive) (hbefore : motive db before past)
    (hclock : (past ++ trace.flatMap Event.readings).Pairwise (· ≤ ·))
    (hreplay : trace.foldlM (replay strtod) db = some db') :
    motive db' (before ++ history trace)
      (past ++ trace.flatMap Event.readings) := by
  induction trace generalizing db before past with
  | nil =>
      cases hreplay
      rw [history, List.flatMap_nil, List.flatMap_nil, List.append_nil,
        List.append_nil]
      exact hbefore
  | cons event trace ih =>
      rw [List.flatMap_cons, ← List.append_assoc] at hclock ⊢
      obtain ⟨between, hfirst, hreplay⟩ := Option.bind_eq_some_iff.mp hreplay
      have hstep := h.event hbefore (List.pairwise_append.mp hclock).1 hfirst
      rw [history, List.flatMap_cons, ← List.append_assoc]
      exact ih hstep hclock hreplay

end Follows

/-- The connection is open and no part of a request has come. -/
def Listening (s : Server) (fd : Nat) : Prop :=
  ∃ c, s.conn fd = some c ∧ c.incoming = [] ∧ c.wantClose = false

def requestReady (exchange : Exchange) : Ready where
  revents := { pollIn := true }
  now := 0
  read := .bytes (frame exchange.body)
  write := .again
  clocks := fun _ => exchange.clock

def requestTraffic (exchange : Exchange) : Traffic :=
  { received := frame exchange.body, exchanges := [exchange] }

theorem readPart_frame {c : Conn} {exchange : Exchange} (hincoming : c.incoming = [])
    (hopen : c.wantClose = false) (hbody : exchange.body.length ≤ maxMsg)
    (hrespond : respond strtod exchange.body db exchange.clock =
      some (db', exchange.resp)) :
    ∃ c', readPart strtod (requestReady exchange) c db =
        some (c', db', requestTraffic exchange) ∧
      c'.incoming = [] ∧ c'.wantClose = false := by
  have hin : (requestReady exchange).revents.pollIn = true := rfl
  have hframe : handleRead strtod c db (requestReady exchange).read
      (requestReady exchange).clocks =
        some (c.afterRead (frame exchange.body) [exchange], db', [exchange]) :=
    handleRead_frame hincoming hbody hrespond
  refine ⟨c.afterRead (frame exchange.body) [exchange], ?_, ?_, ?_⟩
  · rw [readPart, if_pos hin, hframe]
    rfl
  · simp only [Conn.afterRead, hincoming, List.nil_append, frames_frame hbody]
  · simp only [Conn.afterRead, hincoming, List.nil_append, frames_frame hbody, hopen]
    rfl

/-- A run goes on with any request that comes on a listening connection. -/
theorem ServerRun.request {s : Server} {fd : Nat} (hrun : ServerRun strtod s trace)
    (hlisten : Listening s fd) (exchange : Exchange)
    (hbody : exchange.body.length ≤ maxMsg)
    (hrespond : respond strtod exchange.body s.db exchange.clock =
      some (db', exchange.resp)) :
    ∃ s', ServerRun strtod s' (trace ++ [.handled fd (requestTraffic exchange)]) ∧
      s'.db = db' ∧ ∀ other, Listening s other → Listening s' other := by
  obtain ⟨c, hconn, hincoming, hopen⟩ := hlisten
  obtain ⟨after, hread, hafter⟩ :=
    @readPart_frame _ _ _ { c with lastActiveMs := 0 } _ hincoming hopen hbody hrespond
  have hserve : serveReady strtod s fd (requestReady exchange) =
      some ({ s.setConn fd (some after) with
        idle := dlistInsertBefore (dlistDetach s.idle (some fd)) none (some fd)
        db := db' }, requestTraffic exchange, false) := by
    simp only [serveReady, hconn]
    rw [if_neg (by rintro ⟨⟩), show (requestReady exchange).now = 0 from rfl, hread]
    simp [writePart, requestReady, hafter.2, Server.setConn]
  refine ⟨_, hrun.handle (handleReady_eq_some.mpr ⟨_, _, hserve, rfl⟩), rfl, ?_⟩
  intro other hother
  have hconns := congrFun
    (Server.conn_setConn (Server.lt_of_conn hconn) (some after)) other
  by_cases hfd : other = fd
  · subst hfd
    exact ⟨after, hconns.trans (Function.update_self ..), hafter⟩
  · obtain ⟨d, hd, hidle⟩ := hother
    exact ⟨d, hconns.trans ((Function.update_of_ne hfd ..).trans hd), hidle⟩

/-- Any requests with the replies that the database gives to them, one after
another, are the history of a run. -/
theorem ServerRun.requests {s : Server} {exchanges : List (Nat × Exchange)}
    (hrun : ServerRun strtod s trace)
    (hlisten : ∀ request ∈ exchanges, Listening s request.1)
    (hbody : ∀ request ∈ exchanges, request.2.body.length ≤ maxMsg)
    (hreplay : (exchanges.map Prod.snd).foldlM (replayExchange strtod) s.db = some db') :
    ∃ s' later, ServerRun strtod s' (trace ++ later) ∧ s'.db = db' ∧
      history later = exchanges ∧ later.flatMap Event.readings =
        exchanges.flatMap fun request => Exchange.readings request.2 := by
  induction exchanges generalizing s trace with
  | nil =>
      cases hreplay
      exact ⟨s, [], by rwa [List.append_nil], rfl, rfl, rfl⟩
  | cons request exchanges ih =>
      obtain ⟨hfirst, hlisten⟩ := List.forall_mem_cons.mp hlisten
      obtain ⟨hshort, hbody⟩ := List.forall_mem_cons.mp hbody
      obtain ⟨db, hrespond, hreplay⟩ := Option.bind_eq_some_iff.mp hreplay
      obtain ⟨s', hrun', rfl, hkept⟩ :=
        hrun.request hfirst request.2 hshort (replayExchange_eq_some.mp hrespond)
      obtain ⟨last, later, hlater, hdb, hhistory, hreadings⟩ :=
        ih hrun' (fun next hnext => hkept _ (hlisten next hnext)) hbody hreplay
      rw [List.append_assoc] at hlater
      refine ⟨last, _, hlater, hdb, ?_, ?_⟩
      · rw [history, List.flatMap_append, show later.flatMap _ = _ from hhistory]
        rfl
      · rw [List.flatMap_append, hreadings]
        rfl

/-- Two clients set a key each and then get that of the other. -/
def crossing : List (Nat × Exchange) :=
  [(0, ⟨encodeReq [ascii "SET", ascii "a", ascii "x"], ⟨0, 0⟩, Value.nil.encode⟩),
    (1, ⟨encodeReq [ascii "SET", ascii "b", ascii "y"], ⟨1, 1⟩, Value.nil.encode⟩),
    (1, ⟨encodeReq [ascii "GET", ascii "a"], ⟨2, 2⟩, (Value.str (ascii "x")).encode⟩),
    (0, ⟨encodeReq [ascii "GET", ascii "b"], ⟨3, 3⟩, (Value.str (ascii "y")).encode⟩)]

theorem crossing_run : ∃ s trace, ServerRun (fun _ => ({}, 0)) s trace ∧
    trace.flatMap Event.readings = [0, 0, 1, 1, 2, 2, 3, 3] ∧
    history trace = crossing := by
  have heval : ((crossing.map Prod.snd).foldlM (replayExchange fun _ => ({}, 0))
      { pool := some {} }).isSome := by
    decide +kernel
  obtain ⟨db, hreplay⟩ := Option.isSome_iff_exists.mp heval
  let both := acceptNew oneClient (.accepted 1) 0
  have hrun : ServerRun (fun _ => ({}, 0)) both [.accepted 0, .accepted 1] :=
    ((ServerRun.start 30000).accept rfl 0).accept rfl 0
  have hfirst : Listening both 0 := ⟨_, rfl, rfl, rfl⟩
  have hsecond : Listening both 1 := ⟨_, rfl, rfl, rfl⟩
  have hlisten : ∀ request ∈ crossing, Listening both request.1 := by
    simp [crossing, hfirst, hsecond]
  obtain ⟨s, later, hrun, -, hhistory, hreadings⟩ :=
    hrun.requests hlisten (by decide) hreplay
  exact ⟨s, _, hrun, hreadings, hhistory⟩

end MiniRedis.EventLoop
