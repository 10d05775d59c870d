import MiniRedis.Server.EventLoopSpec

namespace MiniRedis.EventLoop

open MiniRedis.Data MiniRedis.Ds MiniRedis.Store MiniRedis.Protocol
open MiniRedis.Server

/-! The byte streams of the connections over whole runs. -/

variable {strtod : Bytes → Double × Nat} {s s' : Server} {fd : Nat}
  {db db' : Database}

def Traffic.append (session traffic : Traffic) : Traffic where
  received := session.received ++ traffic.received
  exchanges := session.exchanges ++ traffic.exchanges
  sent := session.sent ++ traffic.sent

def observe (fd : Nat) (session : Traffic) : Event → Traffic
  | .accepted other => if other = fd then {} else session
  | .handled other traffic =>
      if other = fd then session.append traffic else session
  | _ => session

/-- What went over the connection `fd` since it was last accepted. -/
def session (fd : Nat) (trace : List Event) : Traffic :=
  trace.foldl (observe fd) {}

/-- Makes a request again; it has to get the same reply. -/
def replayExchange (strtod : Bytes → Double × Nat) (db : Database)
    (exchange : Exchange) : Option Database := do
  let (db, resp) ← respond strtod exchange.body db exchange.clock
  if resp = exchange.resp then some db else none

def replay (strtod : Bytes → Double × Nat) (db : Database) :
    Event → Option Database
  | .accepted _ => some db
  | .handled _ traffic => traffic.exchanges.foldlM (replayExchange strtod) db
  | .reaped now => reapKeys now db
  | .taken => workerTake db
  | .freed ent => workerFinish db ent

/-- Any interleaving of the steps of the server, with their events: a step may
begin anywhere in `run`. -/
inductive ServerRun (strtod : Bytes → Double × Nat) :
    Server → List Event → Prop
  | start (timeout : UInt64) :
      ServerRun strtod { idleTimeoutMs := timeout } []
  | step {loop loop' : Loop} {action : Action} {trace : List Event}
      (run : ServerRun strtod loop.server trace)
      (step : LoopStep strtod loop action loop') :
      ServerRun strtod loop'.server (trace ++ action.events)

namespace ServerRun

variable {trace : List Event}

theorem accept (run : ServerRun strtod s trace) (fresh : s.conn fd = none)
    (now : UInt64) :
    ServerRun strtod (acceptNew s (.accepted fd) now)
      (trace ++ [.accepted fd]) := by
  let quiet : Ready := ⟨{}, 0, .again, .again, fun _ => ⟨0, 0⟩⟩
  have hpolled : List.Forall₂ Polled (pollArgs s)
      ((pollArgs s).map fun _ => quiet) := by
    rw [List.forall₂_map_right_iff, List.forall₂_same]
    exact fun _ _ => ⟨by rintro ⟨⟩, by rintro ⟨⟩, Nat.zero_le _⟩
  have hstep : LoopStep strtod ⟨s, none⟩ (.poll _ (some (.accepted fd)) now) _ :=
    .poll hpolled _ now (by rintro _ ⟨⟩; exact fresh)
  exact run.step hstep

theorem handle {ready : Ready} {traffic : Traffic} (run : ServerRun strtod s trace)
    (result : handleReady strtod s fd ready = some (s', traffic)) :
    ServerRun strtod s' (trace ++ [.handled fd traffic]) := by
  have hstep : LoopStep strtod ⟨s, some [(fd, ready)]⟩ _ ⟨s', some []⟩ :=
    .handle result
  exact run.step hstep

theorem timers {now : UInt64} (run : ServerRun strtod s trace)
    (result : processTimers s now = some s') :
    ServerRun strtod s' (trace ++ [.reaped now]) := by
  have hstep : LoopStep strtod ⟨s, some []⟩ _ ⟨s', none⟩ := .timers result
  exact run.step hstep

theorem take (run : ServerRun strtod s trace) (result : workerTake s.db = some db) :
    ServerRun strtod { s with db := db } (trace ++ [.taken]) := by
  have hstep : LoopStep strtod ⟨s, none⟩ _ ⟨{ s with db := db }, none⟩ := .take result
  exact run.step hstep

theorem finish {ent : Ptr} (run : ServerRun strtod s trace)
    (result : workerFinish s.db ent = some db) :
    ServerRun strtod { s with db := db } (trace ++ [.freed ent]) := by
  have hstep : LoopStep strtod ⟨s, none⟩ _ ⟨{ s with db := db }, none⟩ :=
    .finish ent result
  exact run.step hstep

end ServerRun

structure Streamed (c : Conn) (session : Traffic) : Prop where
  bodies : session.exchanges.map Exchange.body = (frames session.received).1
  incoming : c.incoming = (frames session.received).2
  outgoing : session.sent ++ c.outgoing =
    session.exchanges.flatMap Exchange.reply

theorem serve_replay {clocks : Nat → Clock} {bodies : List Bytes} {i : Nat}
    {exchanges : List Exchange}
    (h : serve strtod clocks bodies i db = some (db', exchanges)) :
    exchanges.foldlM (replayExchange strtod) db = some db' := by
  induction bodies generalizing i db exchanges with
  | nil =>
      cases h
      rfl
  | cons body bodies ih =>
      obtain ⟨_, hrespond, h⟩ := Option.bind_eq_some_iff.mp h
      obtain ⟨_, hserve, h⟩ := Option.bind_eq_some_iff.mp h
      cases h
      simp [replayExchange, hrespond, ih hserve]

section Handling

variable {c c' : Conn} {ready : Ready} {past traffic traffic' : Traffic}

theorem Traffic.append_empty (past : Traffic) : past.append {} = past := by
  simp [Traffic.append]

theorem Streamed.start (hincoming : c.incoming = [])
    (houtgoing : c.outgoing = []) : Streamed c {} := by
  have hframes : frames [] = ([], []) := frames_of_none rfl
  refine ⟨?_, ?_, ?_⟩
  · rw [hframes, List.map_nil]
  · rw [hframes, hincoming]
  · rw [houtgoing, List.flatMap_nil, List.append_nil]

theorem Streamed.congr (h : Streamed c past)
    (hincoming : c'.incoming = c.incoming)
    (houtgoing : c'.outgoing = c.outgoing) : Streamed c' past where
  bodies := h.bodies
  incoming := hincoming.trans h.incoming
  outgoing := by rw [houtgoing, h.outgoing]

/-- A chunk completes the frames that are split off what was left of the stream
before it. -/
theorem Streamed.chunk {chunk : Bytes} {exchanges : List Exchange}
    (h : Streamed c past)
    (hbodies : exchanges.map Exchange.body = (frames (c.incoming ++ chunk)).1) :
    Streamed (c.afterRead chunk exchanges)
      (past.append { received := chunk, exchanges := exchanges }) := by
  have hframes := frames_append past.received chunk
  rw [← h.incoming, ← h.bodies, ← hbodies] at hframes
  refine ⟨?_, ?_, ?_⟩
  · simp [Traffic.append, hframes]
  · simp [Traffic.append, hframes, Conn.afterRead]
  · simp [Traffic.append, Conn.afterRead, ← h.outgoing]

theorem readPart_replay
    (hread : readPart strtod ready c db = some (c', db', traffic)) :
    traffic.exchanges.foldlM (replayExchange strtod) db = some db' := by
  unfold readPart at hread
  split at hread
  next =>
    obtain ⟨⟨_, _, exchanges⟩, hresult, hread⟩ :=
      Option.bind_eq_some_iff.mp hread
    cases hread
    rcases handleRead_eq c db ready.read with ⟨_, close, heq⟩ | heq
    · rw [heq] at hresult
      cases hresult
      rfl
    · rw [heq, Option.map_eq_some_iff] at hresult
      obtain ⟨_, hserve, hresult⟩ := hresult
      cases hresult
      exact serve_replay hserve
  next =>
    cases hread
    rfl

theorem writePart_exchanges
    (hwrite : writePart ready c traffic = some (c', traffic')) :
    traffic'.exchanges = traffic.exchanges := by
  unfold writePart at hwrite
  split at hwrite
  next =>
    obtain ⟨_, _, hwrite⟩ := Option.bind_eq_some_iff.mp hwrite
    cases hwrite
    rfl
  next =>
    cases hwrite
    rfl

theorem handleReady_replay
    (h : handleReady strtod s fd ready = some (s', traffic)) :
    traffic.exchanges.foldlM (replayExchange strtod) s.db = some s'.db := by
  rcases handleReady_cases h with ⟨rfl, rfl⟩ | ⟨_, _, hhandled⟩
  · rfl
  · obtain ⟨_, _, hread, hwrite⟩ := hhandled.parts
    rw [writePart_exchanges hwrite]
    exact readPart_replay hread

theorem Streamed.read (h : Streamed c past)
    (hread : readPart strtod ready c db = some (c', db', traffic)) :
    Streamed c' (past.append traffic) ∧ traffic.sent = [] := by
  unfold readPart at hread
  split at hread
  next =>
    obtain ⟨⟨_, _, exchanges⟩, hresult, hread⟩ :=
      Option.bind_eq_some_iff.mp hread
    cases hread
    rcases handleRead_eq c db ready.read with ⟨hchunk, close, heq⟩ | heq
    · rw [heq] at hresult
      cases hresult
      rw [hchunk]
      refine ⟨?_, rfl⟩
      rw [Traffic.append_empty]
      exact h.congr rfl rfl
    · rw [heq, Option.map_eq_some_iff] at hresult
      obtain ⟨_, hserve, hresult⟩ := hresult
      cases hresult
      exact ⟨h.chunk (serve_bodies hserve), rfl⟩
  next =>
    cases hread
    rw [Traffic.append_empty]
    exact ⟨h, rfl⟩

theorem Streamed.write (h : Streamed c (past.append traffic))
    (hsent : traffic.sent = [])
    (hwrite : writePart ready c traffic = some (c', traffic')) :
    Streamed c' (past.append traffic') := by
  unfold writePart at hwrite
  split at hwrite
  next =>
    obtain ⟨⟨_, sent⟩, hresult, hwrite⟩ := Option.bind_eq_some_iff.mp hwrite
    cases hwrite
    have hkept : c'.incoming = c.incoming ∧
        sent ++ c'.outgoing = c.outgoing := by
      rcases handleWrite_cases hresult with
        ⟨rfl, _, _, rfl⟩ | ⟨_, _, hrest, rfl⟩
      · exact ⟨rfl, rfl⟩
      · exact ⟨rfl, hrest⟩
    refine ⟨h.bodies, hkept.1.trans h.incoming, Eq.trans ?_ h.outgoing⟩
    simp [Traffic.append, hsent, ← hkept.2]
  next =>
    cases hwrite
    exact h

end Handling

theorem session_append (fd : Nat) (trace : List Event) (event : Event) :
    session fd (trace ++ [event]) = observe fd (session fd trace) event := by
  simp [session]

/-- The invariant of a run: the database is the one that the events lead to,
and the connections' buffers are as their sessions have them. -/
structure Served (strtod : Bytes → Double × Nat) (s : Server)
    (trace : List Event) : Prop where
  replays : trace.foldlM (replay strtod) { pool := some {} } = some s.db
  streams : ∀ fd c, s.conn fd = some c → Streamed c (session fd trace)

variable {trace : List Event} {event : Event}

theorem Served.step (h : Served strtod s trace)
    (hreplay : replay strtod s.db event = some s'.db)
    (hstreams : ∀ fd c, s'.conn fd = some c →
      Streamed c (observe fd (session fd trace) event)) :
    Served strtod s' (trace ++ [event]) := by
  refine ⟨?_, ?_⟩
  · rw [List.foldlM_append, h.replays]
    simp [hreplay]
  · intro fd c hconn
    rw [session_append]
    exact hstreams fd c hconn

theorem Served.accept (h : Served strtod s trace) (fd : Nat) (now : UInt64) :
    Served strtod (acceptNew s (.accepted fd) now)
      (trace ++ [.accepted fd]) := by
  apply h.step
  · rw [acceptNew_db, replay]
  · intro other c hconn
    rcases Server.conn_of_update (acceptNew_conn s fd now) hconn with
      ⟨rfl, hnew⟩ | ⟨hfd, hold⟩
    · cases hnew
      rw [observe, if_pos rfl]
      exact .start rfl rfl
    · rw [observe, if_neg (Ne.symm hfd)]
      exact h.streams other c hold

theorem Served.handle {ready : Ready} {traffic : Traffic}
    (h : Served strtod s trace)
    (hresult : handleReady strtod s fd ready = some (s', traffic)) :
    Served strtod s' (trace ++ [.handled fd traffic]) := by
  rcases handleReady_cases hresult with ⟨rfl, rfl⟩ | ⟨c, c', hhandled⟩
  · apply h.step rfl
    intro other c hconn
    rw [observe, Traffic.append_empty, ite_self]
    exact h.streams other c hconn
  · obtain ⟨between, half, hread, hwrite⟩ := hhandled.parts
    have hbefore : Streamed { c with lastActiveMs := ready.now }
        (session fd trace) := (h.streams fd c hhandled.found).congr rfl rfl
    obtain ⟨hbetween, hsent⟩ := hbefore.read hread
    have hafter := hbetween.write hsent hwrite
    apply h.step
    · exact handleReady_replay hresult
    · intro other d hconn
      rcases Server.conn_of_update hhandled.conns hconn with
        ⟨rfl, hkept⟩ | ⟨hfd, hold⟩
      · split at hkept
        next => cases hkept
        next =>
          cases hkept
          rw [observe, if_pos rfl]
          exact hafter
      · rw [observe, if_neg (Ne.symm hfd)]
        exact h.streams other d hold

theorem Served.timers {now : UInt64} (h : Served strtod s trace)
    (hresult : processTimers s now = some s') :
    Served strtod s' (trace ++ [.reaped now]) := by
  obtain ⟨hkeys, hconns⟩ := processTimers_conn hresult
  have hreplay : replay strtod s.db (.reaped now) = some s'.db := hkeys
  apply h.step hreplay
  intro fd c hconn
  rcases hconns fd with hsame | hnone
  · exact h.streams fd c (hsame ▸ hconn)
  · rw [hnone] at hconn
    cases hconn

theorem Served.loopStep {loop loop' : Loop} {action : Action}
    (h : Served strtod loop.server trace)
    (hstep : LoopStep strtod loop action loop') :
    Served strtod loop'.server (trace ++ action.events) := by
  cases hstep.move with
  | @poll s results _ input now =>
      rcases acceptPart_cases s results input now with ⟨hsame, hnone⟩ | ⟨fd, rfl⟩
      · rw [hsame, hnone, List.append_nil]
        exact h
      · exact h.accept fd now
  | handle result => exact h.handle result
  | timers result => exact h.timers result
  | take result => exact h.step result h.streams
  | finish ent result => exact h.step result h.streams

theorem ServerRun.served (h : ServerRun strtod s trace) :
    Served strtod s trace := by
  induction h with
  | start timeout => exact ⟨rfl, by rintro fd c ⟨⟩⟩
  | step _ hstep ih => exact ih.loopStep hstep

/-- On every live connection exactly the complete frames of what was received
were processed, once and in order, and their replies are what was sent and what
is still outgoing. The replies are those that the requests of all connections
get in the order of the trace. -/
theorem streams_are_framed (hrun : ServerRun strtod s trace) :
    trace.foldlM (replay strtod) { pool := some {} } = some s.db ∧
    (∀ fd c, s.conn fd = some c →
      (session fd trace).exchanges.map Exchange.body =
        (frames (session fd trace).received).1 ∧
      c.incoming = (frames (session fd trace).received).2 ∧
      (session fd trace).received =
        ((session fd trace).exchanges.flatMap fun exchange =>
          frame exchange.body) ++ c.incoming ∧
      (session fd trace).sent ++ c.outgoing =
        (session fd trace).exchanges.flatMap (fun exchange =>
          writeU32 exchange.resp.length ++ exchange.resp) ∧
      ∀ input clocks, handleRead strtod c s.db input clocks = none →
        ∃ body ∈ (frames (c.incoming ++ input.chunk)).1, ∃ db clock,
          respond strtod body db clock = none) ∧
    (∀ body db clock,
      (∃ cmd, parseReq body [] = some (0, cmd) ∧
        respond strtod body db clock = doRequest strtod cmd db [] clock) ∨
      ((∀ cmd, parseReq body [] ≠ some (0, cmd)) ∧
        respond strtod body db clock =
          some (db, outErr [] errArg (ascii "bad request")))) := by
  have h := hrun.served
  refine ⟨h.replays, ?_, respond_cases⟩
  intro fd c hconn
  obtain ⟨hbodies, hincoming, houtgoing⟩ := h.streams fd c hconn
  refine ⟨hbodies, hincoming, ?_, houtgoing, ?_⟩
  · have hjoin := frames_join (session fd trace).received
    rw [← hbodies, ← hincoming, List.flatMap_map] at hjoin
    exact hjoin.symm
  · exact fun input clocks hnone => handleRead_eq_none hnone

def oneClient : Server := acceptNew { idleTimeoutMs := 30000 } (.accepted 0) 0

theorem oneClient_accepted : LoopStep strtod ⟨{ idleTimeoutMs := 30000 }, none⟩
    (.poll [] (some (.accepted 0)) 0) ⟨oneClient, some []⟩ :=
  .poll .nil _ _ fun _ _ => rfl

theorem oneClient_pollArgs : pollArgs oneClient = [⟨0, true, false⟩] := rfl

theorem oneClient_timers : processTimers oneClient 0 = some oneClient := rfl

def getRequest : Ready where
  revents := { pollIn := true }
  now := 0
  read := .bytes (frame (encodeReq [ascii "GET", ascii "a"]))
  write := .again
  clocks := fun _ => ⟨0, 0⟩

theorem getRequest_polled : Polled ⟨0, true, false⟩ getRequest :=
  ⟨fun _ => rfl, nofun, by decide⟩

theorem getRequest_handled : ∃ s traffic c,
    handleReady (fun _ => ({}, 0)) oneClient 0 getRequest = some (s, traffic) ∧
      s.conn 0 = some c ∧ c.outgoing = frame [serNil] := by
  have heval : ((handleReady (fun _ => ({}, 0)) oneClient 0 getRequest).bind
      fun result => (result.1.conn 0).map Conn.outgoing) =
      some (frame [serNil]) := by
    decide +kernel
  obtain ⟨⟨s, traffic⟩, hresult, heval⟩ := Option.bind_eq_some_iff.mp heval
  obtain ⟨c, hconn, houtgoing⟩ := Option.map_eq_some_iff.mp heval
  exact ⟨s, traffic, c, hresult, hconn, houtgoing⟩

theorem streams_are_framed_get : ∃ s trace c,
    ServerRun (fun _ => ({}, 0)) s trace ∧ s.conn 0 = some c ∧
      c.outgoing = frame [serNil] ∧
      (session 0 trace).sent ++ c.outgoing =
        (session 0 trace).exchanges.flatMap fun exchange =>
          writeU32 exchange.resp.length ++ exchange.resp := by
  obtain ⟨s, traffic, c, hresult, hconn, houtgoing⟩ := getRequest_handled
  have hrun := ((ServerRun.start 30000).accept rfl 0).handle hresult
  have h := (streams_are_framed hrun).2.1 0 c hconn
  exact ⟨s, _, c, hrun, hconn, houtgoing, h.2.2.2.1⟩

end MiniRedis.EventLoop
