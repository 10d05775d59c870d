import MiniRedis.Client.Repl
import MiniRedis.Data.Runs

namespace MiniRedis.Client

open MiniRedis.Data MiniRedis.Ds MiniRedis.Store MiniRedis.Protocol
open MiniRedis.Server MiniRedis.EventLoop

/-! No client waits for ever, whatever the others do. -/

/-- The call of the client can return. Calls on a closed connection do. -/
def clientReady (capacity : Nat) : Program Answer Int × World → Prop
  | (.call request _, w) => w.phase = .closed ∨ ¬ clientBlocked capacity w request
  | (.done _, _) => False

/-- What `poll` reports for the connection, and then `read` and `write`, is what
there is. -/
structure Truthful (capacity : Nat) (w : World) (c : Conn) (ready : Ready) :
    Prop where
  reads : c.wantRead = true → w.toServer ≠ [] →
    ready.revents.pollIn = true ∧ ready.read.chunk ≠ []
  writes : c.wantWrite = true → w.toClient.length < capacity →
    ready.revents.pollOut = true ∧ ∃ count, ready.write = .wrote count ∧ 0 < count

def Polls (w w' : World) : Prop :=
  w.loop.pending = none ∧ w'.loop.pending ≠ none

/-- The connection is accepted at some time, a call of the client that can return
from some time on does, and the loop goes round again and again. What is reported
to the loop need only be true from some time on. -/
structure Fair (capacity fd : Nat) (run : Nat → Program Answer Int × World) :
    Prop where
  accepts : ∃ n, (run n).2.phase ≠ .waiting
  returns : ∀ start, (∀ n ≥ start, clientReady capacity (run n)) →
    ∃ n ≥ start, (run (n + 1)).1 ≠ (run n).1
  rounds : ∀ start, ∃ n ≥ start, Polls (run n).2 (run (n + 1)).2
  reports : ∃ since, ∀ n ≥ since, ∀ c ready entries,
    Polls (run n).2 (run (n + 1)).2 → (run n).2.phase = .opened →
    (run n).2.loop.server.conn fd = some c →
    (run (n + 1)).2.loop.pending = some entries → (fd, ready) ∈ entries →
    Truthful capacity (run n).2 c ready

variable {strtod : Bytes → Double × Nat} {fd capacity : Nat} {w w' : World}
  {c : Conn} {ready : Ready}

section Turn

variable {s s' : Server} {traffic : Traffic}

theorem exists_turn {quiet : List Event → Prop} {loops : Nat → Loop} {start last : Nat}
    {entries : List (Nat × Ready)}
    (hsteps : ∀ n ≥ start, ∃ events,
      LoopEmits strtod (loops n) events (loops (n + 1)) ∧ quiet events)
    (hle : start ≤ last) (hentries : (loops start).pending = some entries)
    (hmem : (fd, ready) ∈ entries) (hlast : (loops last).pending = none) :
    ∃ n ≥ start, ∃ traffic, quiet [.handled fd traffic] ∧
      handleReady strtod (loops n).server fd ready =
        some ((loops (n + 1)).server, traffic) := by
  obtain ⟨count, rfl⟩ := Nat.exists_eq_add_of_le hle
  clear hle
  induction count generalizing start entries with
  | zero =>
      rw [Nat.add_zero, hentries] at hlast
      cases hlast
  | succ count ih =>
      have hlater : ∀ entries', (loops (start + 1)).pending = some entries' →
          (fd, ready) ∈ entries' → ∃ n ≥ start, ∃ traffic,
            quiet [.handled fd traffic] ∧ handleReady strtod (loops n).server fd ready =
              some ((loops (n + 1)).server, traffic) := by
        intro entries' hentries' hmem'
        obtain ⟨n, hn, hturn⟩ := ih
          (fun m hm => hsteps m (Nat.le_of_succ_le hm)) hentries' hmem'
          (by rw [Nat.succ_add_eq_add_succ]; exact hlast)
        exact ⟨n, Nat.le_of_succ_le hn, hturn⟩
      obtain ⟨events, hstep, hquiet⟩ := hsteps start (Nat.le_refl _)
      obtain ⟨action, hstep, rfl⟩ := hstep
      generalize hbefore : loops start = before at hstep hentries
      generalize hafter : loops (start + 1) = after at hstep hlater
      cases hstep.move with
      | poll => cases hentries
      | timers =>
          cases hentries
          cases hmem
      | take => exact hlater _ hentries hmem
      | finish => exact hlater _ hentries hmem
      | handle result =>
          cases hentries
          rcases List.mem_cons.mp hmem with heq | hmem
          · cases heq
            refine ⟨start, Nat.le_refl _, _, hquiet, ?_⟩
            rw [hbefore, hafter]
            exact result
          · exact hlater _ rfl hmem

theorem handleReady_handled (hready : ready.revents ≠ {})
    (hconn : s.conn fd = some c)
    (h : handleReady strtod s fd ready = some (s', traffic)) :
    ∃ c' between half db, readPart strtod ready { c with lastActiveMs := ready.now }
        s.db = some (between, db, half) ∧
      writePart ready between half = some (c', traffic) := by
  obtain ⟨after, closes, hserved, rfl⟩ := handleReady_eq_some.mp h
  rw [serveReady, if_neg hready, hconn] at hserved
  obtain ⟨⟨between, db, half⟩, hread, hserved⟩ := Option.bind_eq_some_iff.mp hserved
  obtain ⟨⟨c', traffic'⟩, hwrite, hserved⟩ := Option.bind_eq_some_iff.mp hserved
  cases hserved
  exact ⟨c', between, half, db, hread, hwrite⟩

theorem handleReady_received (hin : ready.revents.pollIn = true)
    (hconn : s.conn fd = some c)
    (h : handleReady strtod s fd ready = some (s', traffic)) :
    traffic.received = ready.read.chunk := by
  have hready : ready.revents ≠ {} := fun hnone => by
    rw [hnone] at hin
    cases hin
  obtain ⟨c', between, half, db, hread, hwrite⟩ := handleReady_handled hready hconn h
  rw [readPart, if_pos hin] at hread
  obtain ⟨⟨_, _, exchanges⟩, _, hread⟩ := Option.bind_eq_some_iff.mp hread
  cases hread
  unfold writePart at hwrite
  split at hwrite
  next =>
    obtain ⟨_, _, hwrite⟩ := Option.bind_eq_some_iff.mp hwrite
    cases hwrite
    rfl
  next =>
    cases hwrite
    rfl

theorem handleReady_sent {count : Nat} {past : Traffic}
    (hout : ready.revents.pollOut = true) (hwrote : ready.write = .wrote count)
    (hcount : 0 < count) (hconn : s.conn fd = some c) (hstream : Streamed c past)
    (hsome : c.outgoing ≠ [])
    (h : handleReady strtod s fd ready = some (s', traffic)) :
    traffic.sent ≠ [] := by
  have hready : ready.revents ≠ {} := fun hnone => by
    rw [hnone] at hout
    cases hout
  obtain ⟨c', between, half, db, hread, hwrite⟩ := handleReady_handled hready hconn h
  have hbefore : Streamed { c with lastActiveMs := ready.now } past :=
    hstream.congr rfl rfl
  obtain ⟨hafter, hsent⟩ := hbefore.read hread
  -- what is read only adds replies to those that are to be sent
  have hmore : between.outgoing ≠ [] := by
    intro hnone
    have hreplies := hafter.outgoing
    rw [hnone, Traffic.append, hsent, List.append_nil, List.append_nil,
      List.flatMap_append, ← hstream.outgoing, List.append_assoc] at hreplies
    have hempty := List.self_eq_append_right.mp hreplies
    exact hsome (List.append_eq_nil_iff.mp hempty).1
  rw [writePart, if_pos hout] at hwrite
  obtain ⟨⟨_, sent⟩, hresult, hwrite⟩ := Option.bind_eq_some_iff.mp hwrite
  cases hwrite
  unfold handleWrite at hresult
  rw [if_neg hmore, hwrote] at hresult
  have htake : between.outgoing.take count ≠ [] := by
    rw [Ne, List.take_eq_nil_iff, not_or]
    exact ⟨Nat.ne_of_gt hcount, hmore⟩
  simp only at hresult
  split at hresult
  next =>
    split at hresult
    next =>
      cases hresult
      exact htake
    next =>
      cases hresult
      exact htake
  next => cases hresult

theorem LoopEmits.polls {loop loop' : Loop} {events : List Event}
    {entries : List (Nat × Ready)} (h : LoopEmits strtod loop events loop')
    (hnone : loop.pending = none) (hentries : loop'.pending = some entries)
    (hconn : loop.server.conn fd = some c) (hown : c.fd = fd) :
    ∃ ready, (fd, ready) ∈ entries := by
  obtain ⟨action, hstep, -⟩ := h
  cases hstep.move with
  | @poll s results polled =>
      cases hentries
      have harg : ⟨fd, c.wantRead, c.wantWrite⟩ ∈ pollArgs s := by
        have hslot := Option.join_eq_some_iff.mp hconn
        refine List.mem_filterMap.mpr ⟨some c, List.mem_of_getElem? hslot, ?_⟩
        rw [Option.map_some, hown]
      obtain ⟨i, hi⟩ := List.mem_iff_getElem?.mp harg
      have hlt : i < results.length := by
        rw [← polled.length_eq]
        exact (List.getElem?_eq_some_iff.mp hi).1
      refine ⟨results.get ⟨i, hlt⟩, List.mem_iff_getElem?.mpr ⟨i, ?_⟩⟩
      rw [List.getElem?_zip_eq_some, List.getElem?_map, hi]
      exact ⟨rfl, List.getElem?_eq_getElem hlt⟩
  | handle => cases hnone
  | timers => cases hnone
  | take =>
      rw [hnone] at hentries
      cases hentries
  | finish =>
      rw [hnone] at hentries
      cases hentries

end Turn

section Quiet

variable {world : Nat → World} {start : Nat}

theorem Serves.phase (h : Serves strtod fd w w') :
    (w.phase ≠ .waiting → w'.phase ≠ .waiting) ∧
      (w.phase = .closed → w'.phase = .closed) := by
  cases h with
  | elsewhere => exact ⟨id, id⟩
  | accepted _ hphase =>
      refine ⟨fun hwaiting => absurd hphase hwaiting, ?_⟩
      rw [hphase]
      rintro ⟨⟩
  | served _ hphase =>
      refine ⟨?_, ?_⟩
      · intro _
        simp only
        split <;> rintro ⟨⟩
      · rw [hphase]
        rintro ⟨⟩

theorem Effect.phase {request : Call} {answer : Answer request}
    (h : Effect w request answer w') : w'.phase = w.phase := by
  cases h <;> rfl

theorem Serves.moves (h : Serves strtod fd w w') (hphase : w.phase = .opened) :
    ∃ events, LoopEmits strtod w.loop events w'.loop ∧
      w'.session = w.session.append (session fd events) ∧
      w.toServer = (session fd events).received ++ w'.toServer ∧
      w'.toClient = w.toClient ++ (session fd events).sent := by
  cases h with
  | elsewhere _ hother => exact absurd hphase hother
  | accepted _ hother =>
      rw [hphase] at hother
      cases hother
  | served step _ hserver => exact ⟨_, step, rfl, hserver, rfl⟩

structure Quiet (strtod : Bytes → Double × Nat) (fd : Nat) (w w' : World) :
    Prop where
  emits : ∃ events, LoopEmits strtod w.loop events w'.loop ∧ session fd events = {}
  session : w'.session = w.session
  toServer : w'.toServer = w.toServer
  toClient : w'.toClient = w.toClient

theorem Linked.exchanges_eq_nil {traffic : Traffic} (h : Linked strtod fd w)
    (h' : Linked strtod fd w') (hsession : w'.session = w.session.append traffic)
    (hnone : traffic.received = []) : traffic.exchanges = [] := by
  have hbodies := h'.bodies
  rw [hsession, Traffic.append, hnone, List.append_nil, ← h.bodies] at hbodies
  have hlength := congrArg List.length hbodies
  rw [List.length_map, List.length_map, List.length_append] at hlength
  exact List.eq_nil_of_length_eq_zero (by omega)

/-- While the client makes no call, the server runs out of bytes to read, then of
replies to write. -/
theorem exists_quiet (world : Nat → World)
    (hserves : ∀ n ≥ start, Serves strtod fd (world n) (world (n + 1)))
    (hopened : ∀ n ≥ start, (world n).phase = .opened)
    (hlinked : ∀ n ≥ start, Linked strtod fd (world n)) :
    ∃ quiet ≥ start, ∀ n ≥ quiet, Quiet strtod fd (world n) (world (n + 1)) := by
  have hmoves := fun n hn => (hserves n hn).moves (hopened n hn)
  obtain ⟨fed, hfed, hserver⟩ := exists_constant_from
    (fun n => (world n).toServer.length) (fun n (hn : n ≥ start) => by
      obtain ⟨events, _, _, hserver, _⟩ := hmoves n hn
      rw [hserver, List.length_append]
      exact Nat.le_add_left _ _)
  have hreceived : ∀ n ≥ fed, ∃ events,
      LoopEmits strtod (world n).loop events (world (n + 1)).loop ∧
      (session fd events).received = [] ∧ (session fd events).exchanges = [] ∧
      (world (n + 1)).session = (world n).session.append (session fd events) ∧
      (world (n + 1)).toServer = (world n).toServer ∧
      (world (n + 1)).toClient = (world n).toClient ++ (session fd events).sent := by
    intro n hn
    have hle : start ≤ n := Nat.le_trans hfed hn
    obtain ⟨events, hstep, hsession, hrest, hclient⟩ := hmoves n hle
    have hnone : (session fd events).received = [] := by
      have hlength := congrArg List.length hrest
      rw [List.length_append, hserver n hn] at hlength
      exact List.eq_nil_of_length_eq_zero (by omega)
    rw [hnone, List.nil_append] at hrest
    exact ⟨events, hstep, hnone, (hlinked n hle).exchanges_eq_nil
      (hlinked (n + 1) (Nat.le_succ_of_le hle)) hsession hnone, hsession, hrest.symm,
      hclient⟩
  have hbound : ∀ n ≥ fed, (world n).session.sent.length ≤
      ((world n).session.exchanges.flatMap Exchange.reply).length := fun n hn =>
    (hlinked n (Nat.le_trans hfed hn)).replies.length_le
  obtain ⟨quiet, hquiet, howed⟩ := exists_constant_from
    (fun n => ((world n).session.exchanges.flatMap Exchange.reply).length -
      (world n).session.sent.length) (fun n (hn : n ≥ fed) => by
      obtain ⟨events, _, _, hexchanges, hsession, _⟩ := hreceived n hn
      simp only [hsession, Traffic.append, hexchanges, List.append_nil,
        List.length_append]
      omega)
  refine ⟨quiet, Nat.le_trans hfed hquiet, ?_⟩
  intro n hn
  have hle : fed ≤ n := Nat.le_trans hquiet hn
  obtain ⟨events, hstep, hnone, hexchanges, hsession, hserver, hclient⟩ :=
    hreceived n hle
  have hsent : (session fd events).sent = [] := by
    have howes := howed n hn
    have hmost := hbound (n + 1) (Nat.le_succ_of_le hle)
    simp only [hsession, Traffic.append, hexchanges, List.append_nil,
      List.length_append] at howes hmost
    exact List.eq_nil_of_length_eq_zero (by omega)
  have hempty : session fd events = {} := by
    cases hall : session fd events
    rw [hall] at hnone hexchanges hsent
    cases hnone
    cases hexchanges
    cases hsent
    rfl
  rw [hempty, Traffic.append_empty] at hsession
  rw [hsent, List.append_nil] at hclient
  exact ⟨⟨events, hstep, hempty⟩, hsession, hserver, hclient⟩

theorem Quiet.same (hquiet : ∀ n ≥ start, Quiet strtod fd (world n) (world (n + 1)))
    {first n : Nat} (hfirst : first ≥ start) (hn : n ≥ first) :
    (world n).session = (world first).session ∧
      (world n).toServer = (world first).toServer ∧
      (world n).toClient = (world first).toClient := by
  induction n, hn using Nat.le_induction with
  | base => exact ⟨rfl, rfl, rfl⟩
  | succ n hn ih =>
      have hstep := hquiet n (Nat.le_trans hfirst hn)
      exact ⟨hstep.session.trans ih.1, hstep.toServer.trans ih.2.1,
        hstep.toClient.trans ih.2.2⟩

variable {request : Call}

theorem clientBlocked_congr (hserver : w'.toServer = w.toServer)
    (hclient : w'.toClient = w.toClient) :
    clientBlocked capacity w' request ↔ clientBlocked capacity w request := by
  cases request with
  | write buffer => rw [clientBlocked, clientBlocked, hserver]
  | read count => rw [clientBlocked, clientBlocked, hclient]
  | _ => rfl

/-- The turn of a connection that `poll` could report moves bytes. -/
theorem Truthful.traffic_ne {c' : Conn} {s' : Server} {traffic : Traffic}
    (h : Truthful capacity w c ready) (hserver : ¬ serverBlocked capacity w c)
    (hsettled : Settled fd c) (hlinked : Linked strtod fd w')
    (hopened : w'.phase = .opened) (hconn : w'.loop.server.conn fd = some c')
    (houtgoing : c'.outgoing = c.outgoing)
    (hresult : handleReady strtod w'.loop.server fd ready = some (s', traffic)) :
    traffic ≠ {} := by
  rintro rfl
  rw [serverBlocked, not_and_or, not_not, not_not] at hserver
  rcases hserver with ⟨hreads, hbytes⟩ | ⟨hwrites, hroom⟩
  · obtain ⟨hin, hchunk⟩ := h.reads hreads hbytes
    exact hchunk (handleReady_received hin hconn hresult).symm
  · obtain ⟨hout, count, hwrote, hcount⟩ := h.writes hwrites hroom
    obtain ⟨_, hstream⟩ := hlinked.conn hopened hconn
    have hsome : c'.outgoing ≠ [] := by
      rw [houtgoing]
      intro hnone
      rw [hsettled.writes, hnone] at hwrites
      cases hwrites
    exact handleReady_sent hout hwrote hcount hconn hstream hsome hresult rfl

/-- A client whose call could not return would be served. -/
theorem not_clientBlocked (hcapacity : 0 < capacity)
    (hquiet : ∀ n ≥ start, Quiet strtod fd (world n) (world (n + 1)))
    (hopened : ∀ n ≥ start, (world n).phase = .opened)
    (hlinked : ∀ n ≥ start, Linked strtod fd (world n))
    (hprogress : ∀ n ≥ start, Progress fd request (world n))
    (hsmall : ∀ n ≥ start, (world n).Small)
    (hrounds : ∀ first, ∃ n ≥ first, Polls (world n) (world (n + 1)))
    (hreports : ∀ n ≥ start, ∀ c ready entries, Polls (world n) (world (n + 1)) →
      (world n).loop.server.conn fd = some c →
      (world (n + 1)).loop.pending = some entries → (fd, ready) ∈ entries →
      Truthful capacity (world n) c ready) :
    ∀ n ≥ start, ¬ clientBlocked capacity (world n) request := by
  intro first hfirst hblocked
  obtain ⟨n, hn, hpolls⟩ := hrounds first
  have hstart : n ≥ start := Nat.le_trans hfirst hn
  obtain ⟨_, hserver, hclient⟩ := Quiet.same hquiet hfirst hn
  have hblocked := (clientBlocked_congr hserver hclient).mpr hblocked
  obtain ⟨c, hconn, _⟩ := (hlinked n hstart).opened (hopened n hstart)
  obtain ⟨hsettled, hstream⟩ := (hlinked n hstart).conn (hopened n hstart) hconn
  obtain ⟨entries, hentries⟩ := Option.ne_none_iff_exists'.mp hpolls.2
  obtain ⟨events, hemits, _⟩ := (hquiet n hstart).emits
  obtain ⟨ready, hmem⟩ := LoopEmits.polls hemits hpolls.1 hentries hconn hsettled.own
  have htrue := hreports n hstart c ready entries hpolls hconn hentries hmem
  -- the connection has its turn before the next round
  obtain ⟨last, hlast, hnext⟩ := hrounds (n + 1)
  obtain ⟨turn, hturn, traffic, hnothing, hresult⟩ := exists_turn
    (fun m (hm : m ≥ n + 1) => (hquiet m (by omega)).emits) hlast hentries hmem hnext.1
  have hlater : turn ≥ start := by omega
  obtain ⟨c', hconn', _⟩ := (hlinked turn hlater).opened (hopened turn hlater)
  have houtgoing : c'.outgoing = c.outgoing := by
    have hboth := ((hlinked turn hlater).conn (hopened turn hlater) hconn').2.outgoing
    rw [(Quiet.same hquiet hstart (by omega)).1, ← hstream.outgoing] at hboth
    exact List.append_cancel_left hboth
  have hserver : ¬ serverBlocked capacity (world n) c := fun hserver =>
    hprogress n hstart capacity c hcapacity (hsmall n hstart) (hopened n hstart) hconn
      ⟨hblocked, hserver⟩
  apply htrue.traffic_ne hserver hsettled (hlinked turn hlater) (hopened turn hlater)
    hconn' houtgoing hresult
  rw [← hnothing]
  simp [session, observe, Traffic.append]

end Quiet

section Finish

variable {showDouble : Double → Bytes} {args : List Bytes} {loop : Loop}
  {trace : List Event} {run : Nat → Program Answer Int × World}

theorem Step.phase {state state' : Program Answer Int × World}
    (h : Program.Step (setting strtod fd) state state') :
    (state.2.phase ≠ .waiting → state'.2.phase ≠ .waiting) ∧
      (state.2.phase = .closed → state'.2.phase = .closed) := by
  cases h with
  | call result =>
      have hphase := Effect.phase result
      exact ⟨fun h => hphase ▸ h, fun h => hphase ▸ h⟩
  | others step => exact Serves.phase step

theorem phase_settles (hsteps : ∀ n, Program.Step (setting strtod fd) (run n)
      (run (n + 1))) (haccepts : ∃ n, (run n).2.phase ≠ .waiting) :
    ∃ start, (∀ n ≥ start, (run n).2.phase = .opened) ∨
      ∀ n ≥ start, (run n).2.phase = .closed := by
  by_cases hcloses : ∃ n, (run n).2.phase = .closed
  · obtain ⟨start, hclosed⟩ := hcloses
    refine ⟨start, .inr ?_⟩
    intro n hn
    induction n, hn using Nat.le_induction with
    | base => exact hclosed
    | succ n _ ih => exact (Step.phase (hsteps n)).2 ih
  · obtain ⟨start, haccepted⟩ := haccepts
    refine ⟨start, .inl ?_⟩
    intro n hn
    have hphase : (run n).2.phase ≠ .waiting := by
      induction n, hn using Nat.le_induction with
      | base => exact haccepted
      | succ n _ ih => exact (Step.phase (hsteps n)).1 ih
    cases hnow : (run n).2.phase with
    | waiting => exact absurd hnow hphase
    | opened => rfl
    | closed => exact absurd ⟨n, hnow⟩ hcloses

/-- Whatever the other clients, the timers and the workers do, and for every
capacity of the socket buffers: the client comes to its end, as long as the loop
goes round, calls that can return do, and no reply is too long for its header. -/
theorem client_finishes {program : Program Answer Int}
    (hrun : LoopRun strtod loop trace)
    (hprogram : (∃ lines, program = interactive showDouble lines) ∨
      ∃ args, program = oneShot showDouble args)
    (hstart : run 0 = (program, start loop trace))
    (hsteps : ∀ n, Program.Step (setting strtod fd) (run n) (run (n + 1)))
    (hsmall : ∀ n, (run n).2.Small) (hcapacity : 0 < capacity)
    (hfair : Fair capacity fd run) :
    ∃ n code, (run n).1 = .done code := by
  obtain ⟨still, hstill⟩ := Program.exists_others_from hsteps
  have hprogram' : ∀ n ≥ still, (run n).1 = (run still).1 := by
    intro n hn
    induction n, hn using Nat.le_induction with
    | base => rfl
    | succ n hn ih => rw [(hstill n hn).1, ih]
  cases hwaits : (run still).1 with
  | done code => exact ⟨still, code, hwaits⟩
  | call request next =>
      -- the client would wait for ever
      have hcall : ∀ n ≥ still, run n = (.call request next, (run n).2) := by
        intro n hn
        rw [← hwaits, ← hprogram' n hn]
      have hattended : ∀ n ≥ still, Attended strtod fd request (run n).2 := by
        intro n hn
        have hreach := reaches_of_steps hsteps n
        rw [hstart, hcall n hn] at hreach
        exact client_attended hrun hprogram hreach
      have hnever : ∀ later ≥ still,
          ¬ ∀ n ≥ later, clientReady capacity (run n) := by
        intro later hlater hready
        obtain ⟨n, hn, hmoved⟩ := hfair.returns later hready
        exact hmoved (hstill n (Nat.le_trans hlater hn)).1
      obtain ⟨settled, hopened | hclosed⟩ := phase_settles hsteps hfair.accepts
      · obtain ⟨since, hreports⟩ := hfair.reports
        obtain ⟨quiet, hle, hquiet⟩ := exists_quiet (fun n => (run n).2)
          (fun n (hn : n ≥ max since (max still settled)) => (hstill n (by omega)).2)
          (fun n hn => hopened n (by omega)) (fun n hn => (hattended n (by omega)).2)
        have hfree := not_clientBlocked hcapacity hquiet
          (fun n hn => hopened n (by omega)) (fun n hn => (hattended n (by omega)).2)
          (fun n hn => (hattended n (by omega)).1) (fun n _ => hsmall n) hfair.rounds
          (fun n hn c ready entries hpolls => hreports n (by omega) c ready entries
            hpolls (hopened n (by omega)))
        refine absurd ?_ (hnever quiet (by omega))
        intro n hn
        rw [hcall n (by omega)]
        exact .inr (hfree n hn)
      · refine absurd ?_ (hnever (max still settled) (by omega))
        intro n hn
        rw [hcall n (by omega)]
        exact .inl (hclosed n (by omega))

theorem Step.small {state state' : Program Answer Int × World}
    (h : Program.Step (setting strtod fd) state state') (hsmall : state'.2.Small) :
    state.2.Small := by
  cases h with
  | call result => cases result <;> exact hsmall
  | others step =>
      cases step with
      | elsewhere => exact hsmall
      | accepted => exact hsmall
      | served =>
          intro resp hmem
          refine hsmall resp ?_
          rw [World.replies, Traffic.append, List.map_append]
          exact List.mem_append_left _ hmem

theorem small_of_le (hsteps : ∀ n, Program.Step (setting strtod fd) (run n)
      (run (n + 1))) {n later : Nat} (hle : n ≤ later) (h : (run later).2.Small) :
    (run n).2.Small := by
  induction later, hle using Nat.le_induction with
  | base => exact h
  | succ later _ ih => exact ih (Step.small (hsteps later) h)

structure Idling (s : Server) (code : Int) (n : Nat)
    (state : Program Answer Int × World) : Prop where
  done : state.1 = .done code
  closed : state.2.phase = .closed
  loop : state.2.loop = ⟨s, if n % 2 = 0 then some [] else none⟩
  small : state.2.Small

theorem exists_idle_run {s : Server} {state : Program Answer Int × World} {code : Int}
    (hconns : s.conns = [none]) (htimers : processTimers s 0 = some s)
    (h : Idling s code 0 state) :
    ∃ rest : Nat → Program Answer Int × World, rest 0 = state ∧
      (∀ n, Program.Step (setting strtod fd) (rest n) (rest (n + 1))) ∧
      ∀ n, Idling s code n (rest n) := by
  refine exists_run_of_steps (Idling s code) ?_ h
  rintro n ⟨_, w⟩ ⟨rfl, hphase, hloop, hsmall⟩
  simp only at hphase hloop
  have hother : w.phase ≠ .opened := by
    rw [hphase]
    rintro ⟨⟩
  rcases Nat.mod_two_eq_zero_or_one n with heven | hodd
  · rw [if_pos heven] at hloop
    have hstep : LoopEmits strtod w.loop [.reaped 0] ⟨s, none⟩ := by
      rw [hloop]
      exact (LoopStep.timers htimers).emits
    refine ⟨_, .others (.elsewhere hstep hother), rfl, hphase, ?_, hsmall⟩
    rw [if_neg (by omega)]
  · rw [if_neg (by omega)] at hloop
    have hempty : pollArgs s = [] := by simp [pollArgs, hconns]
    have hstep : LoopEmits strtod w.loop [] ⟨s, some []⟩ := by
      have hpoll := (@LoopStep.poll strtod s [] (by rw [hempty]; exact .nil) none 0
        (by rintro fd ⟨⟩)).emits
      rw [hempty] at hpoll
      rw [hloop]
      exact hpoll
    refine ⟨_, .others (.elsewhere hstep hother), rfl, hphase, ?_, hsmall⟩
    rw [if_pos (by omega)]

theorem Fair.of_idling {s : Server} {code : Int} {skip : Nat}
    (h : ∀ n, Idling s code n (run (skip + n))) : Fair capacity fd run := by
  refine ⟨⟨skip, ?_⟩, ?_, ?_, skip, ?_⟩
  · have hphase := (h 0).closed
    rw [Nat.add_zero] at hphase
    rw [hphase]
    rintro ⟨⟩
  · intro start hready
    have hnow := hready (skip + start) (Nat.le_add_left _ _)
    have hdone : run (skip + start) = (.done code, (run (skip + start)).2) := by
      rw [← (h start).done]
    rw [hdone] at hnow
    exact hnow.elim
  · intro start
    refine ⟨skip + (2 * start + 1), by omega, ?_, ?_⟩
    · rw [(h _).loop]
      exact if_neg (by omega)
    · rw [Nat.add_assoc, (h _).loop]
      simp only
      rw [if_pos (by omega)]
      rintro ⟨⟩
  · intro n hn c ready entries _ hopened
    obtain ⟨later, rfl⟩ := Nat.exists_eq_add_of_le hn
    rw [(h later).closed] at hopened
    cases hopened

theorem client_finishes_get : ∃ run : Nat → Program Answer Int × World,
    run 0 = (oneShot (fun _ => []) [ascii "GET", ascii "a"],
      start ⟨{ idleTimeoutMs := 30000 }, none⟩ []) ∧
    (∃ n, (run n).2.stdout = ascii "(nil)\n") ∧ ∃ n code, (run n).1 = .done code := by
  obtain ⟨w, s, hsent, hout, hstage, hconns, hidle⟩ := @sendCommand_get
    (start ⟨{ idleTimeoutMs := 30000 }, none⟩ []) (fun _ => []) ⟨rfl, rfl, rfl, rfl, rfl⟩
  have hreach : Relation.ReflTransGen (Program.Step (setting (fun _ => ({}, 0)) 0))
      (oneShot (fun _ => []) [ascii "GET", ascii "a"],
        start ⟨{ idleTimeoutMs := 30000 }, none⟩ []) (.done 0, w) :=
    (Program.Step.run_bind hsent).tail (Program.Step.answered (.close w) rfl)
  have hsmall : w.Small := by
    rw [World.Small, hstage.replies]
    decide
  obtain ⟨rest, hrest, hgoes, hidling⟩ := exists_idle_run hconns hidle
    (⟨rfl, hstage.phase, hstage.loop, hsmall⟩ : Idling s 0 0 (.done 0, w))
  obtain ⟨run, skip, hstart, hsteps, hskip⟩ := exists_run hreach hrest hgoes
  have hidling : ∀ n, Idling s 0 n (run (skip + n)) := fun n => by
    rw [hskip]
    exact hidling n
  have hsmall : ∀ n, (run n).2.Small := fun n =>
    small_of_le hsteps (Nat.le_add_left n skip) (hidling n).small
  have hfair : Fair 1 0 run := .of_idling hidling
  refine ⟨run, hstart, ⟨skip, ?_⟩, client_finishes (.start 30000) (.inr ⟨_, rfl⟩) hstart
    hsteps hsmall (by decide) hfair⟩
  have hlast := hskip 0
  rw [Nat.add_zero, hrest] at hlast
  rw [hlast]
  simp only [hout]
  decide +kernel

end Finish

end MiniRedis.Client
