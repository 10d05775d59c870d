import MiniRedis.Server.BackPressure

namespace MiniRedis.EventLoop

open MiniRedis.Data MiniRedis.Ds MiniRedis.Store MiniRedis.Protocol
open MiniRedis.Server

/-! What a client has got when an oversized header closes its connection. -/

variable {strtod : Bytes → Double × Nat} {s s' : Server} {fd : Nat}
  {db db' : Database} {c c' : Conn} {ready : Ready} {traffic traffic' : Traffic}
  {loop : Loop} {trace : List Event}

inductive LoopRun (strtod : Bytes → Double × Nat) : Loop → List Event → Prop
  | start (timeout : UInt64) :
      LoopRun strtod ⟨{ idleTimeoutMs := timeout }, none⟩ []
  | step {loop loop' : Loop} {action : Action} {trace : List Event}
      (run : LoopRun strtod loop trace)
      (step : LoopStep strtod loop action loop') :
      LoopRun strtod loop' (trace ++ action.events)

theorem LoopRun.loopReachable (h : LoopRun strtod loop trace) :
    LoopReachable strtod loop := by
  induction h with
  | start timeout => exact ⟨timeout, .refl⟩
  | step _ hstep ih => exact ih.tail hstep

theorem LoopRun.serverRun (h : LoopRun strtod loop trace) :
    ServerRun strtod loop.server trace := by
  induction h with
  | start timeout => exact .start timeout
  | step _ hstep ih => exact ih.step hstep

/-- Nothing but the bytes that were read can close the connection. -/
structure FaultFree (ready : Ready) : Prop where
  err : ready.revents.pollErr = false
  hup : ready.revents.pollHup = false
  read : ready.revents.pollIn = true →
    ready.read ≠ .failed ∧ ready.read ≠ .bytes []
  write : ready.revents.pollOut = true → ready.write ≠ .failed

theorem handleWrite_stays {input : WriteResult} {sent : Bytes}
    (h : handleWrite c input = some (c', sent)) (hinput : input ≠ .failed) :
    c'.wantClose = c.wantClose := by
  rcases handleWrite_cases h with ⟨_, close, hfailed, rfl⟩ | ⟨_, _, _, rfl⟩
  · have hopen : close = false :=
      Bool.eq_false_iff.mpr fun hclose => hinput (hfailed hclose)
    rw [hopen, Bool.or_false]
  · rfl

theorem handleRead_stays {input : ReadResult} {clocks : Nat → Clock}
    {exchanges : List Exchange} (hchunk : input.chunk = [])
    (hinput : input ≠ .failed ∧ input ≠ .bytes [])
    (h : handleRead strtod c db input clocks = some (c', db', exchanges)) :
    c'.wantClose = c.wantClose := by
  cases input with
  | again =>
      cases h
      rfl
  | failed => exact absurd rfl hinput.1
  | bytes chunk =>
      cases hchunk
      exact absurd rfl hinput.2

structure HeaderSeen (c : Conn) (ready : Ready) (traffic : Traffic) : Prop where
  reads : ready.revents.pollIn = true
  sent : traffic.sent = []
  received : traffic.received = ready.read.chunk
  bodies : traffic.exchanges.map Exchange.body =
    (frames (c.incoming ++ ready.read.chunk)).1
  header : oversized (frames (c.incoming ++ ready.read.chunk)).2 = true

theorem Settled.closes (h : Settled fd c) (hawaited : Awaited ready c)
    (hready : FaultFree ready) {between : Conn}
    (hread : readPart strtod ready c db = some (between, db', traffic))
    (hwrite : writePart ready between traffic = some (c', traffic'))
    (hclose : c'.wantClose = true) : HeaderSeen c ready traffic' := by
  have hstays : c'.wantClose ≠ c.wantClose := by
    simp [hclose, h.stays]
  rcases h.turn_cases hawaited hread hwrite with
    ⟨hin, exchanges, hcall, rfl⟩ | ⟨hout, _, hcall⟩ | rfl
  · rcases handleRead_eq c db ready.read with ⟨hchunk, -⟩ | heq
    · exact absurd (handleRead_stays hchunk (hready.read hin) hcall) hstays
    · rw [heq, Option.map_eq_some_iff] at hcall
      obtain ⟨_, hserve, hcall⟩ := hcall
      cases hcall
      refine ⟨hin, rfl, rfl, serve_bodies hserve, ?_⟩
      simpa [Conn.afterRead, h.stays] using hclose
  · exact absurd (handleWrite_stays hcall (hready.write hout)) hstays
  · exact absurd rfl hstays

theorem flatMap_reply_eq_nil {exchanges : List Exchange} :
    exchanges.flatMap Exchange.reply = [] ↔ exchanges = [] := by
  constructor
  · intro h
    cases exchanges with
    | nil => rfl
    | cons exchange rest =>
        have hlength := congrArg List.length h
        rw [List.flatMap_cons, List.length_append, Exchange.reply,
          length_frame, List.length_nil] at hlength
        omega
  · rintro rfl
    rfl

theorem HeaderSeen.session {past : Traffic} (h : HeaderSeen c ready traffic)
    (hstream : Streamed c past) (houtgoing : c.outgoing = []) :
    (past.append traffic).exchanges.map Exchange.body =
      (frames (past.append traffic).received).1 ∧
    ((past.append traffic).sent =
      (past.append traffic).exchanges.flatMap Exchange.reply ↔
        (frames (c.incoming ++ ready.read.chunk)).1 = []) := by
  have hsent := hstream.outgoing
  rw [houtgoing, List.append_nil] at hsent
  simp only [Traffic.append, h.received, h.sent, List.append_nil]
  refine ⟨?_, ?_⟩
  · rw [List.map_append, frames_append, ← hstream.incoming, hstream.bodies,
      h.bodies]
  · rw [List.flatMap_append, ← hsent, List.self_eq_append_right,
      flatMap_reply_eq_nil, ← h.bodies, List.map_eq_nil_iff]

/-- When an oversized header closes a connection, the client has got the replies
of all its requests if and only if the last read completed none of them. -/
theorem framing_close_iff {rest : List (Nat × Ready)}
    (hrun : LoopRun strtod ⟨s, some ((fd, ready) :: rest)⟩ trace)
    (hconn : s.conn fd = some c) (hready : FaultFree ready)
    (hresult : handleReady strtod s fd ready = some (s', traffic))
    (hclosed : s'.conn fd = none) :
    oversized (frames (c.incoming ++ ready.read.chunk)).2 = true ∧
    (session fd (trace ++ [.handled fd traffic])).exchanges.map Exchange.body =
      (frames (session fd (trace ++ [.handled fd traffic])).received).1 ∧
    ((session fd (trace ++ [.handled fd traffic])).sent =
      (session fd (trace ++ [.handled fd traffic])).exchanges.flatMap
        Exchange.reply ↔ (frames (c.incoming ++ ready.read.chunk)).1 = []) := by
  have hsettled := hrun.loopReachable.settled
  have hstream := hrun.serverRun.served.streams fd c hconn
  have hc := hsettled.settled fd c hconn
  have hawaited := ((hsettled.due _ rfl).2 _ List.mem_cons_self).awaited c hconn
  rcases handleReady_cases hresult with ⟨rfl, -⟩ | ⟨found, c', hhandled⟩
  · rw [hconn] at hclosed
    cases hclosed
  · have hfound := hhandled.found
    rw [hconn, Option.some.injEq] at hfound
    subst hfound
    obtain ⟨between, half, hread, hwrite⟩ := hhandled.parts
    have hclose : c'.wantClose = true := by
      have hnone := congrFun hhandled.conns fd
      rw [hclosed, Function.update_self, hready.err, hready.hup] at hnone
      simpa using hnone
    have hrefreshed : Settled fd { c with lastActiveMs := ready.now } :=
      ⟨hc.own, hc.modes, hc.writes, hc.stays, hc.drained, hc.fits⟩
    have hseen := hrefreshed.closes ⟨hawaited.pollIn, hawaited.pollOut⟩ hready
      hread hwrite hclose
    have houtgoing := hc.outgoing_eq_nil (hawaited.pollIn hseen.reads)
    have hwhole : HeaderSeen c ready traffic :=
      ⟨hseen.reads, hseen.sent, hseen.received, hseen.bodies, hseen.header⟩
    rw [session_append, observe, if_pos rfl]
    exact ⟨hseen.header, hwhole.session hstream houtgoing⟩

def badClient (before : Bytes) : Ready where
  revents := { pollIn := true }
  now := 0
  read := .bytes (before ++ [255, 255, 255, 255])
  write := .again
  clocks := fun _ => ⟨0, 0⟩

theorem LoopRun.round {arg : PollFd} {now : UInt64} {between : Server}
    (hrun : LoopRun strtod ⟨s, none⟩ trace) (hargs : pollArgs s = [arg])
    (hpolled : Polled arg ready)
    (hhandle : handleReady strtod s arg.fd ready = some (between, traffic))
    (htimers : processTimers between now = some s') :
    LoopRun strtod ⟨s', none⟩ (trace ++ [.handled arg.fd traffic, .reaped now]) := by
  have hrun' := ((hrun.step (.poll_single hargs hpolled)).step (.handle hhandle)).step
    (.timers htimers)
  simpa [Action.events] using hrun'

theorem oneClient_run :
    LoopRun (fun _ => ({}, 0)) ⟨oneClient, none⟩ [.accepted 0, .reaped 0] := by
  have haccept : LoopRun (fun _ => ({}, 0)) ⟨oneClient, some []⟩ [.accepted 0] :=
    .step (.start 30000) oneClient_accepted
  exact haccept.step (.timers oneClient_timers)

theorem badClient_pending (before : Bytes)
    (hsize : (before ++ [255, 255, 255, 255]).length ≤ kReadSize) :
    LoopRun (fun _ => ({}, 0)) ⟨oneClient, some [(0, badClient before)]⟩
      [.accepted 0, .reaped 0] := by
  have hpolled : Polled ⟨0, true, false⟩ (badClient before) :=
    ⟨fun _ => rfl, nofun, hsize⟩
  exact oneClient_run.step (.poll_single oneClient_pollArgs hpolled)

theorem badClient_faultFree (before : Bytes) : FaultFree (badClient before) := by
  refine ⟨rfl, rfl, fun _ => ⟨nofun, ?_⟩, nofun⟩
  simp [badClient]

def takeReply : Ready where
  revents := { pollOut := true }
  now := 0
  read := .again
  write := .wrote 5
  clocks := fun _ => ⟨0, 0⟩

/-- A client that has got a reply, and then sends the header. -/
theorem exists_answered : ∃ s s' c asked sent traffic,
    LoopRun (fun _ => ({}, 0)) ⟨s, some [(0, badClient [])]⟩ [.accepted 0, .reaped 0,
      .handled 0 asked, .reaped 0, .handled 0 sent, .reaped 0] ∧
    s.conn 0 = some c ∧ c.incoming = [] ∧
    asked.exchanges.map Exchange.resp ++ sent.exchanges.map Exchange.resp =
      [[serNil]] ∧
    handleReady (fun _ => ({}, 0)) s 0 (badClient []) = some (s', traffic) ∧
    s'.conn 0 = none := by
  have heval : ((handleReady (fun _ => ({}, 0)) oneClient 0 getRequest).bind
      fun asked => (processTimers asked.1 0).bind fun polled =>
        (handleReady (fun _ => ({}, 0)) polled 0 takeReply).bind fun sent =>
          (processTimers sent.1 0).bind fun idle => (idle.conn 0).bind fun c =>
            (handleReady (fun _ => ({}, 0)) idle 0 (badClient [])).map fun closed =>
              (([polled, idle].map pollArgs).map
                  (·.map fun arg => (arg.fd, arg.pollIn, arg.pollOut)),
                c.incoming :: asked.2.exchanges.map Exchange.resp ++
                  sent.2.exchanges.map Exchange.resp,
                (closed.1.conn 0).isNone)) =
      some ([[(0, false, true)], [(0, true, false)]], [[], [serNil]], true) := by
    decide +kernel
  obtain ⟨⟨answered, asked⟩, hasked, heval⟩ := Option.bind_eq_some_iff.mp heval
  obtain ⟨polled, htimers, heval⟩ := Option.bind_eq_some_iff.mp heval
  obtain ⟨⟨taken, sent⟩, hsent, heval⟩ := Option.bind_eq_some_iff.mp heval
  obtain ⟨s, htimers', heval⟩ := Option.bind_eq_some_iff.mp heval
  obtain ⟨c, hconn, heval⟩ := Option.bind_eq_some_iff.mp heval
  obtain ⟨⟨s', traffic⟩, hresult, heval⟩ := Option.map_eq_some_iff.mp heval
  simp only [List.map_cons, List.map_nil, List.cons_append, Prod.mk.injEq,
    List.cons.injEq, and_true, Option.isNone_iff_eq_none] at heval
  obtain ⟨⟨hpolled, hidle⟩, ⟨hincoming, hreplies⟩, hclosed⟩ := heval
  obtain ⟨⟨fd, reads, writes⟩, hpolled, harg⟩ := List.map_eq_singleton_iff.mp hpolled
  cases harg
  obtain ⟨⟨fd, reads, writes⟩, hidle, harg⟩ := List.map_eq_singleton_iff.mp hidle
  cases harg
  have hwrite : Polled ⟨0, false, true⟩ takeReply := ⟨nofun, fun _ => rfl, by decide⟩
  have hheader : Polled ⟨0, true, false⟩ (badClient []) :=
    ⟨fun _ => rfl, nofun, by decide⟩
  have hround := oneClient_run.round oneClient_pollArgs getRequest_polled hasked htimers
  have hrun := (hround.round hpolled hwrite hsent htimers').step
    (.poll_single hidle hheader)
  exact ⟨s, s', c, asked, sent, traffic, hrun, hconn, hincoming, hreplies, hresult,
    hclosed⟩

theorem framing_close_iff_answered : ∃ s s' trace traffic,
    LoopRun (fun _ => ({}, 0)) ⟨s, some [(0, badClient [])]⟩ trace ∧
    handleReady (fun _ => ({}, 0)) s 0 (badClient []) = some (s', traffic) ∧
    s'.conn 0 = none ∧
    (session 0 trace).exchanges.map Exchange.resp = [[serNil]] ∧
    (session 0 (trace ++ [.handled 0 traffic])).sent =
      (session 0 (trace ++ [.handled 0 traffic])).exchanges.flatMap
        Exchange.reply := by
  obtain ⟨s, s', c, asked, sent, traffic, hrun, hconn, hincoming, hreplies, hresult,
    hclosed⟩ := exists_answered
  have hiff := (framing_close_iff hrun hconn (badClient_faultFree []) hresult hclosed).2.2
  refine ⟨s, s', _, traffic, hrun, hresult, hclosed, ?_, hiff.mpr ?_⟩
  · simpa [session, observe, Traffic.append] using hreplies
  · rw [hincoming]
    decide +kernel

def getFrame : Bytes := frame (encodeReq [ascii "GET", ascii "a"])

/-- The reply to a request that came with the header is lost. -/
theorem framing_close_loses :
    LoopRun (fun _ => ({}, 0)) ⟨oneClient, some [(0, badClient getFrame)]⟩
      [.accepted 0, .reaped 0] ∧ FaultFree (badClient getFrame) ∧
    ∃ s' traffic,
      handleReady (fun _ => ({}, 0)) oneClient 0 (badClient getFrame) =
        some (s', traffic) ∧ s'.conn 0 = none ∧
      (session 0 ([.accepted 0, .reaped 0] ++ [.handled 0 traffic])).sent = [] ∧
      (session 0 ([.accepted 0, .reaped 0] ++
        [.handled 0 traffic])).exchanges.flatMap Exchange.reply =
          frame [serNil] := by
  have heval : (handleReady (fun _ => ({}, 0)) oneClient 0
      (badClient getFrame)).map (fun result => ((result.1.conn 0).isNone,
        result.2.sent, result.2.exchanges.flatMap Exchange.reply)) =
      some (true, [], frame [serNil]) := by
    decide +kernel
  obtain ⟨⟨s', traffic⟩, hresult, heval⟩ := Option.map_eq_some_iff.mp heval
  obtain ⟨hnone, hsent, hreplies⟩ := by simpa only [Prod.mk.injEq] using heval
  refine ⟨badClient_pending getFrame (by decide +kernel),
    badClient_faultFree getFrame, s', traffic, hresult,
    Option.isNone_iff_eq_none.mp hnone, ?_, ?_⟩
  · simpa [session, observe, Traffic.append] using hsent
  · simpa [session, observe, Traffic.append] using hreplies

end MiniRedis.EventLoop
