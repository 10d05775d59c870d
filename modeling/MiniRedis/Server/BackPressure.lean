import MiniRedis.Server.Streams

namespace MiniRedis.EventLoop

open MiniRedis.Data MiniRedis.Ds MiniRedis.Store MiniRedis.Protocol
open MiniRedis.Server

/-! The state machine of a connection: it reads while it owes no reply, and
writes while it does. -/

variable {strtod : Bytes → Double × Nat} {s s' : Server} {fd : Nat}
  {db db' : Database} {c c' : Conn} {ready : Ready}
  {traffic traffic' : Traffic}

structure Settled (fd : Nat) (c : Conn) : Prop where
  own : c.fd = fd
  modes : c.wantRead = !c.wantWrite
  writes : c.wantWrite = !c.outgoing.isEmpty
  stays : c.wantClose = false
  drained : splitFrame c.incoming = none
  fits : oversized c.incoming = false

theorem Settled.new (fd : Nat) (now : UInt64) :
    Settled fd { fd := fd, wantRead := true, lastActiveMs := now } :=
  ⟨rfl, rfl, rfl, rfl, rfl, rfl⟩

theorem Settled.outgoing_eq_nil (h : Settled fd c) (hread : c.wantRead = true) :
    c.outgoing = [] := by
  have hmodes := h.modes
  rw [hread, h.writes, Bool.not_not] at hmodes
  exact List.isEmpty_iff.mp hmodes.symm

theorem Settled.length_incoming (h : Settled fd c) :
    c.incoming.length < 4 + maxMsg := by
  rcases splitFrame_eq_none h.drained with hshort | ⟨len, _, hlen, hcases⟩
  · omega
  · have hfits := h.fits
    rw [oversized, hlen, Option.any_some, decide_eq_false_iff_not] at hfits
    omega

theorem Settled.read (h : Settled fd c) (hmode : c.wantRead = true)
    {input : ReadResult} {clocks : Nat → Clock} {exchanges : List Exchange}
    (hread : handleRead strtod c db input clocks = some (c', db', exchanges))
    (hstays : c'.wantClose = false) : Settled fd c' := by
  rcases handleRead_eq c db input with ⟨_, close, heq⟩ | heq
  · rw [heq] at hread
    cases hread
    exact ⟨h.own, h.modes, h.writes, hstays, h.drained, h.fits⟩
  · rw [heq, Option.map_eq_some_iff] at hread
    obtain ⟨_, _, hread⟩ := hread
    cases hread
    have hwrite : c.wantWrite = false := by
      have hmodes := h.modes
      rw [hmode] at hmodes
      simpa using hmodes.symm
    have hoversized := (Bool.or_eq_false_iff.mp hstays).2
    refine ⟨h.own, ?_, ?_, hstays, splitFrame_frames _, hoversized⟩
    · simp [Conn.afterRead, hmode, hwrite]
    · simp [Conn.afterRead, hwrite]

theorem Settled.write (h : Settled fd c) (hmode : c.wantWrite = true)
    {input : WriteResult} {sent : Bytes}
    (hwrite : handleWrite c input = some (c', sent))
    (hstays : c'.wantClose = false) : Settled fd c' := by
  rcases handleWrite_cases hwrite with ⟨_, close, _, rfl⟩ | ⟨rest, _, _, rfl⟩
  · exact ⟨h.own, h.modes, h.writes, hstays, h.drained, h.fits⟩
  · have hread : c.wantRead = false := by
      rw [h.modes, hmode]
      rfl
    refine ⟨h.own, ?_, ?_, hstays, h.drained, h.fits⟩
    · simp [Conn.afterWrite, hmode, hread]
    · simp [Conn.afterWrite, hmode]

/-- What `poll` reported is what the connection waits for. -/
structure Awaited (ready : Ready) (c : Conn) : Prop where
  pollIn : ready.revents.pollIn = true → c.wantRead = true
  pollOut : ready.revents.pollOut = true → c.wantWrite = true

theorem Settled.pollOut_eq_false (h : Settled fd c) (hawaited : Awaited ready c)
    (hin : ready.revents.pollIn = true) : ready.revents.pollOut = false := by
  by_contra hout
  have hboth := h.modes
  rw [hawaited.pollIn hin, hawaited.pollOut (Bool.eq_true_of_not_eq_false hout)]
    at hboth
  cases hboth

/-- What handling a connection comes to: a read, a write, or neither. -/
theorem Settled.turn_cases (h : Settled fd c) (hawaited : Awaited ready c)
    (hread : readPart strtod ready c db = some (c', db', traffic))
    {c'' : Conn} (hwrite : writePart ready c' traffic = some (c'', traffic')) :
    (ready.revents.pollIn = true ∧ ∃ exchanges,
      handleRead strtod c db ready.read ready.clocks =
        some (c'', db', exchanges) ∧
      traffic' = { received := ready.read.chunk, exchanges := exchanges }) ∨
    (ready.revents.pollOut = true ∧ ∃ sent,
      handleWrite c ready.write = some (c'', sent)) ∨
    c'' = c := by
  cases hin : ready.revents.pollIn with
  | true =>
      have hout := h.pollOut_eq_false hawaited hin
      simp only [writePart, hout, Bool.false_eq_true, if_false] at hwrite
      cases hwrite
      rw [readPart, if_pos hin] at hread
      obtain ⟨⟨_, _, exchanges⟩, hcall, hresult⟩ :=
        Option.bind_eq_some_iff.mp hread
      cases hresult
      exact .inl ⟨rfl, exchanges, hcall, rfl⟩
  | false =>
      simp only [readPart, hin, Bool.false_eq_true, if_false] at hread
      cases hread
      cases hout : ready.revents.pollOut with
      | true =>
          rw [writePart, if_pos hout] at hwrite
          obtain ⟨⟨_, sent⟩, hcall, hresult⟩ := Option.bind_eq_some_iff.mp hwrite
          cases hresult
          exact .inr (.inl ⟨rfl, sent, hcall⟩)
      | false =>
          simp only [writePart, hout, Bool.false_eq_true, if_false] at hwrite
          cases hwrite
          exact .inr (.inr rfl)

theorem Settled.turn (h : Settled fd c) (hawaited : Awaited ready c)
    (hread : readPart strtod ready c db = some (c', db', traffic))
    {c'' : Conn} (hwrite : writePart ready c' traffic = some (c'', traffic'))
    (hstays : c''.wantClose = false) : Settled fd c'' := by
  rcases h.turn_cases hawaited hread hwrite with
    ⟨hin, _, hcall, -⟩ | ⟨hout, _, hcall⟩ | rfl
  · exact h.read (hawaited.pollIn hin) hcall hstays
  · exact h.write (hawaited.pollOut hout) hcall hstays
  · exact h

def ServerSettled (s : Server) : Prop :=
  ∀ fd c, s.conn fd = some c → Settled fd c

structure Due (s : Server) (fd : Nat) (ready : Ready) : Prop where
  awaited : ∀ c, s.conn fd = some c → Awaited ready c
  size : ready.read.chunk.length ≤ kReadSize

structure LoopSettled (loop : Loop) : Prop where
  settled : ServerSettled loop.server
  due : ∀ pending, loop.pending = some pending →
    (pending.map Prod.fst).Nodup ∧
      ∀ entry ∈ pending, Due loop.server entry.1 entry.2

theorem pollArg_eq (h : ServerSettled s) {i : Nat} {up : Option Conn}
    {arg : PollFd} (hup : s.conns[i]? = some up)
    (harg : (up.map fun c => ⟨c.fd, c.wantRead, c.wantWrite⟩) = some arg) :
    ∃ c, s.conn i = some c ∧ arg = ⟨i, c.wantRead, c.wantWrite⟩ := by
  obtain ⟨c, rfl, rfl⟩ := Option.map_eq_some_iff.mp harg
  have hconn : s.conn i = some c := by rw [Server.conn, hup, Option.join_some]
  exact ⟨c, hconn, by rw [(h i c hconn).own]⟩

theorem mem_pollArgs (h : ServerSettled s) {arg : PollFd}
    (harg : arg ∈ pollArgs s) :
    ∃ c, s.conn arg.fd = some c ∧ arg = ⟨arg.fd, c.wantRead, c.wantWrite⟩ := by
  obtain ⟨up, hup, hmap⟩ := List.mem_filterMap.mp harg
  obtain ⟨i, hi⟩ := List.mem_iff_getElem?.mp hup
  obtain ⟨c, hconn, rfl⟩ := pollArg_eq h hi hmap
  exact ⟨c, hconn, rfl⟩

theorem nodup_pollArgs (h : ServerSettled s) :
    ((pollArgs s).map PollFd.fd).Nodup := by
  rw [List.Nodup, List.pairwise_map, pollArgs, List.pairwise_filterMap,
    List.pairwise_iff_getElem]
  intro i j hi hj hij arg harg arg' harg'
  obtain ⟨_, _, rfl⟩ := pollArg_eq h (List.getElem?_eq_getElem hi) harg
  obtain ⟨_, _, rfl⟩ := pollArg_eq h (List.getElem?_eq_getElem hj) harg'
  exact Nat.ne_of_lt hij

theorem ServerSettled.accept (h : ServerSettled s)
    (input : Option AcceptResult) (now : UInt64) :
    ServerSettled (acceptPart s input now) := by
  rcases acceptPart_cases s [] input now with ⟨hsame, -⟩ | ⟨fd, rfl⟩
  · rw [hsame]
    exact h
  · intro other c hconn
    rcases Server.conn_of_update (acceptNew_conn s fd now) hconn with
      ⟨rfl, hnew⟩ | ⟨_, hold⟩
    · cases hnew
      exact .new other now
    · exact h other c hold

/-- What is accepted after `poll` is on a descriptor that was not polled. -/
theorem Due.accept {input : Option AcceptResult} (h : Due s fd ready)
    (hopen : s.conn fd ≠ none)
    (fresh : ∀ fd, input.bind AcceptResult.opened = some fd → s.conn fd = none)
    (now : UInt64) : Due (acceptPart s input now) fd ready := by
  rcases acceptPart_cases s [] input now with ⟨hsame, -⟩ | ⟨other, rfl⟩
  · rw [hsame]
    exact h
  · refine ⟨?_, h.size⟩
    have hne : fd ≠ other := by
      rintro rfl
      exact hopen (fresh fd rfl)
    rw [acceptPart, acceptNew_conn, Function.update_of_ne hne]
    exact h.awaited

theorem LoopSettled.poll {results : List Ready} (h : ServerSettled s)
    (polled : List.Forall₂ Polled (pollArgs s) results)
    {input : Option AcceptResult} (now : UInt64)
    (fresh : ∀ fd, input.bind AcceptResult.opened = some fd → s.conn fd = none) :
    LoopSettled ⟨acceptPart s input now,
      some (((pollArgs s).map PollFd.fd).zip results)⟩ := by
  refine ⟨h.accept input now, ?_⟩
  rintro pending ⟨⟩
  have hlength := polled.length_eq
  refine ⟨?_, ?_⟩
  · rw [List.map_fst_zip (by rw [List.length_map, hlength])]
    exact nodup_pollArgs h
  · rintro ⟨fd, ready⟩ hentry
    rw [List.zip_map_left, List.mem_map] at hentry
    obtain ⟨⟨arg, _⟩, hmem, hpair⟩ := hentry
    cases hpair
    obtain ⟨c, hconn, harg⟩ := mem_pollArgs h (List.of_mem_zip hmem).1
    have hpolled := List.forall₂_zip polled hmem
    rw [harg] at hpolled
    refine Due.accept ⟨?_, hpolled.size⟩ (by simp [hconn]) fresh now
    intro c' hconn'
    rw [hconn] at hconn'
    cases hconn'
    exact ⟨hpolled.pollIn, hpolled.pollOut⟩

theorem Handled.settled (h : ServerSettled s) (hdue : Due s fd ready)
    (hhandled : Handled strtod s s' fd ready traffic c c') :
    ServerSettled s' := by
  obtain ⟨between, half, hread, hwrite⟩ := hhandled.parts
  have hsettled := h fd c hhandled.found
  have hawaited := hdue.awaited c hhandled.found
  -- The refreshed timer is no part of what is settled.
  have hbefore : Settled fd { c with lastActiveMs := ready.now } :=
    ⟨hsettled.own, hsettled.modes, hsettled.writes, hsettled.stays, hsettled.drained,
      hsettled.fits⟩
  have hwaits : Awaited ready { c with lastActiveMs := ready.now } :=
    ⟨hawaited.pollIn, hawaited.pollOut⟩
  intro other d hconn
  rcases Server.conn_of_update hhandled.conns hconn with
    ⟨rfl, hkept⟩ | ⟨_, hold⟩
  · split at hkept
    next => cases hkept
    next hopen =>
      cases hkept
      simp only [Bool.or_eq_true, not_or, Bool.not_eq_true] at hopen
      exact hbefore.turn hwaits hread hwrite hopen.1.1
  · exact h other d hold

theorem LoopSettled.handle {rest : List (Nat × Ready)}
    (h : LoopSettled ⟨s, some ((fd, ready) :: rest)⟩)
    (hresult : handleReady strtod s fd ready = some (s', traffic)) :
    LoopSettled ⟨s', some rest⟩ := by
  obtain ⟨hnodup, hdue⟩ := h.due _ rfl
  rw [List.map_cons, List.nodup_cons] at hnodup
  rcases handleReady_cases hresult with ⟨rfl, _⟩ | ⟨c, c', hhandled⟩
  · refine ⟨h.settled, ?_⟩
    rintro pending ⟨⟩
    exact ⟨hnodup.2, fun entry hentry =>
      hdue entry (List.mem_cons_of_mem _ hentry)⟩
  · refine ⟨hhandled.settled h.settled (hdue _ List.mem_cons_self), ?_⟩
    rintro pending ⟨⟩
    refine ⟨hnodup.2, ?_⟩
    rintro ⟨other, later⟩ hentry
    have hne : other ≠ fd := by
      rintro rfl
      exact hnodup.1 (List.mem_map.mpr ⟨_, hentry, rfl⟩)
    obtain ⟨hawaited, hsize⟩ := hdue _ (List.mem_cons_of_mem _ hentry)
    refine ⟨?_, hsize⟩
    rw [hhandled.conns, Function.update_of_ne hne]
    exact hawaited

theorem ServerSettled.timers {now : UInt64} (h : ServerSettled s)
    (hresult : processTimers s now = some s') : ServerSettled s' := by
  intro fd c hconn
  rcases (processTimers_conn hresult).2 fd with hsame | hnone
  · exact h fd c (hsame ▸ hconn)
  · rw [hnone] at hconn
    cases hconn

theorem LoopSettled.congr {pending : Option (List (Nat × Ready))}
    (h : LoopSettled ⟨s, pending⟩) (hconn : s'.conn = s.conn) :
    LoopSettled ⟨s', pending⟩ := by
  refine ⟨?_, ?_⟩
  · intro fd c hfound
    rw [hconn] at hfound
    exact h.settled fd c hfound
  · intro list hlist
    obtain ⟨hnodup, hdue⟩ := h.due list hlist
    refine ⟨hnodup, ?_⟩
    intro entry hentry
    refine ⟨?_, (hdue entry hentry).size⟩
    rw [hconn]
    exact (hdue entry hentry).awaited

theorem LoopStep.settled {loop loop' : Loop} {action : Action}
    (hstep : LoopStep strtod loop action loop') (h : LoopSettled loop) :
    LoopSettled loop' := by
  cases hstep.move with
  | poll polled input now => exact .poll h.settled polled now hstep.fresh
  | handle result => exact h.handle result
  | timers result => exact ⟨h.settled.timers result, by rintro pending ⟨⟩⟩
  | take _ => exact h.congr rfl
  | finish _ _ => exact h.congr rfl

theorem LoopReachable.settled {loop : Loop} (h : LoopReachable strtod loop) :
    LoopSettled loop := by
  obtain ⟨timeout, hsteps⟩ := h
  induction hsteps with
  | refl => exact ⟨by rintro fd c ⟨⟩, by rintro pending ⟨⟩⟩
  | tail _ hstep ih =>
      obtain ⟨action, hstep⟩ := hstep
      exact hstep.settled ih

theorem tryOneRequest_shrinks {clock : Clock} {processed : Option Exchange}
    (h : tryOneRequest strtod c db clock = some (c', db', processed)) :
    c'.incoming.length ≤ c.incoming.length := by
  cases hsplit : splitFrame c.incoming with
  | none =>
      rw [tryOneRequest_of_none clock hsplit] at h
      cases h
      exact le_refl _
  | some result =>
      rw [tryOneRequest_of_some clock hsplit, Option.map_eq_some_iff] at h
      obtain ⟨_, _, h⟩ := h
      cases h
      exact le_of_lt (frameSplitter.shrinks hsplit)

/-- In every state of the loop each connection either reads or writes: it writes
while it has unsent replies, and is never read meanwhile. No complete frame is
left in what it received, which is therefore bounded, also during a read. -/
theorem connections_settled {loop : Loop}
    (hreach : LoopReachable strtod loop) :
    (∀ fd c, loop.server.conn fd = some c →
      c.wantRead = !c.wantWrite ∧
      (c.wantWrite = true ↔ c.outgoing ≠ []) ∧
      c.wantClose = false ∧
      (frames c.incoming).1 = [] ∧
      oversized c.incoming = false ∧
      c.incoming.length < 4 + maxMsg) ∧
    (∀ fd ready rest c, loop.pending = some ((fd, ready) :: rest) →
      loop.server.conn fd = some c → ready.revents.pollIn = true →
      c.outgoing = [] ∧
      (c.incoming ++ ready.read.chunk).length ≤ 4 + maxMsg - 1 + 65536) ∧
    (∀ c c' db db' clock processed,
      tryOneRequest strtod c db clock = some (c', db', processed) →
      c'.incoming.length ≤ c.incoming.length) := by
  have h := hreach.settled
  refine ⟨?_, ?_, ?_⟩
  · intro fd c hconn
    have hsettled := h.settled fd c hconn
    refine ⟨hsettled.modes, ?_, hsettled.stays, ?_, hsettled.fits,
      hsettled.length_incoming⟩
    · rw [hsettled.writes]
      simp
    · rw [frames_of_none hsettled.drained]
  · intro fd ready rest c hpending hconn hin
    have hsettled := h.settled fd c hconn
    have hdue := (h.due _ hpending).2 _ List.mem_cons_self
    refine ⟨hsettled.outgoing_eq_nil ((hdue.awaited c hconn).pollIn hin), ?_⟩
    have hincoming := hsettled.length_incoming
    have hsize : ready.read.chunk.length ≤ kReadSize := hdue.size
    unfold kReadSize at hsize
    rw [List.length_append]
    omega
  · intro c c' db db' clock processed hresult
    exact tryOneRequest_shrinks hresult

theorem oneClient_reachable :
    LoopReachable (fun _ => ({}, 0)) ⟨oneClient, none⟩ := by
  have hstart : LoopReachable (fun _ => ({}, 0)) ⟨{ idleTimeoutMs := 30000 }, none⟩ :=
    ⟨30000, .refl⟩
  exact (hstart.tail oneClient_accepted).tail (.timers oneClient_timers)

theorem connections_settled_get : ∃ s c,
    LoopReachable (fun _ => ({}, 0)) ⟨s, some []⟩ ∧ s.conn 0 = some c ∧
      c.outgoing = frame [serNil] ∧ (c.wantWrite = true ↔ c.outgoing ≠ []) := by
  obtain ⟨s, traffic, c, hresult, hconn, houtgoing⟩ := getRequest_handled
  have hreach : LoopReachable (fun _ => ({}, 0)) ⟨s, some []⟩ :=
    (oneClient_reachable.tail (.poll_single oneClient_pollArgs getRequest_polled)).tail
      (.handle hresult)
  exact ⟨s, c, hreach, hconn, houtgoing,
    ((connections_settled hreach).1 0 c hconn).2.1⟩

end MiniRedis.EventLoop
