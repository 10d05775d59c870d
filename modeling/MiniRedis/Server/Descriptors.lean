import MiniRedis.Net.Socket
import MiniRedis.Server.IdleList

namespace MiniRedis.EventLoop

open MiniRedis.Data MiniRedis.Ds MiniRedis.Store MiniRedis.Net
open MiniRedis.Server

/-! The event loop with the descriptors of its process. The listener is a
`Socket`, and a connection has its descriptor in hand. -/

def listenSock : Nat := 0

/-- The constructor of the server, where `socket` answers `fd`. -/
def openListener (fd : Nat) : Option Process := do
  let proc ← Process.make {} listenSock none
  (proc.openFile fd).reset listenSock (some fd)

/-- `~Conn` of `conns_[fd]`, if there is one. -/
def closeConn (s : Server) (fd : Nat) (proc : Process) : Option Process :=
  match s.conn fd with
  | some c => proc.closeFile c.fd
  | none => some proc

def acceptFiles (s : Server) (proc : Process) : AcceptResult → Option Process
  | .failed => some proc
  | .blocking fd => (proc.openFile fd).closeFile fd
  -- `conns_[connfd] = std::move(conn)` would destroy what is there
  | .accepted fd => closeConn s fd (proc.openFile fd)

def acceptPartFiles (s : Server) (proc : Process) (input : Option AcceptResult) :
    Option Process :=
  match input with
  | some input => acceptFiles s proc input
  | none => some proc

/-- `conns_[fd].reset()` with what it closes. -/
def resetFiles (state : Server × Process) (fd : Nat) : Option (Server × Process) := do
  let proc ← closeConn state.1 fd state.2
  some (state.1.resetConn fd, proc)

def handleReadyFiles (strtod : Bytes → Double × Nat) (s : Server) (fd : Nat)
    (ready : Ready) (proc : Process) : Option (Server × Traffic × Process) := do
  let (s, traffic, closes) ← serveReady strtod s fd ready
  let (s, proc) ← if closes then resetFiles (s, proc) fd else some (s, proc)
  some (s, traffic, proc)

def reapIdleFiles (now : UInt64) (fuel : Nat) (state : Server × Process) :
    Option (Server × Process) :=
  reapIdleWith Prod.fst resetFiles now fuel state

def processTimersFiles (s : Server) (now : UInt64) (proc : Process) :
    Option (Server × Process) := do
  let (s, proc) ← reapIdleFiles now (s.conns.length + 1) (s, proc)
  let db ← reapKeys now s.db
  some ({ s with db := db }, proc)

/-- The destruction of `conns_`. -/
def destroyConns : List (Option Conn) → Process → Option Process
  | [], proc => some proc
  | none :: rest, proc => destroyConns rest proc
  | some c :: rest, proc => do
      let proc ← proc.closeFile c.fd
      destroyConns rest proc

/-- What `~Server` does to the descriptors, in the order of the members. -/
def destroyFiles (s : Server) (proc : Process) : Option Process := do
  let proc ← destroyConns s.conns proc
  proc.destroy listenSock

structure Host where
  loop : Loop
  proc : Process

def Action.files (strtod : Bytes → Double × Nat) (s : Server) (proc : Process) :
    Action → Option Process
  | .poll _ input _ => acceptPartFiles s proc input
  | .handle fd ready _ =>
      (handleReadyFiles strtod s fd ready proc).map fun result => result.2.2
  | .timers now => (processTimersFiles s now proc).map Prod.snd
  | .take | .finish _ => some proc

/-- All that the kernel promises is that a descriptor it opens was not open. -/
def HostStep (strtod : Bytes → Double × Nat) (host host' : Host) : Prop :=
  ∃ action, Move strtod host.loop action host'.loop ∧
    (∀ fd, action.opens = some fd → fd ∉ host.proc.files) ∧
    action.files strtod host.loop.server host.proc = some host'.proc

def HostReachable (strtod : Bytes → Double × Nat) (listen : Nat) (host : Host) :
    Prop :=
  ∃ timeout proc, openListener listen = some proc ∧
    Relation.ReflTransGen (HostStep strtod)
      ⟨⟨{ idleTimeoutMs := timeout }, none⟩, proc⟩ host

/-! What is in hand is what the connections have. -/

variable {strtod : Bytes → Double × Nat} {s s' : Server} {fd listen : Nat}
  {proc proc' : Process} {ready : Ready} {traffic : Traffic} {now : UInt64}

structure Accounted (listen : Nat) (s : Server) (proc : Process) : Prop where
  reach : SocketReachable proc
  listener : ∀ p, proc.socket p =
    if p = listenSock then some ⟨some listen⟩ else none
  conns : ∀ fd, (s.conn fd).map Conn.fd = proc.owner (.inr fd)

namespace Accounted

theorem congr (h : Accounted listen s proc)
    (hconns : ∀ fd, (s'.conn fd).map Conn.fd = (s.conn fd).map Conn.fd) :
    Accounted listen s' proc :=
  ⟨h.reach, h.listener, fun fd => (hconns fd).trans (h.conns fd)⟩

theorem owner_of_conn {c : Conn} (h : Accounted listen s proc)
    (hconn : s.conn fd = some c) : c.fd = fd ∧ proc.held fd = true := by
  have hfd := h.conns fd
  rw [hconn, Option.map_some, Process.owner] at hfd
  split at hfd
  next hheld => exact ⟨Option.some.inj hfd, hheld⟩
  next => cases hfd

theorem held_of_conn {c : Conn} (h : Accounted listen s proc)
    (hconn : s.conn fd = some c) :
    ∃ proc', proc.closeFile c.fd = some proc' ∧
      SocketReachable proc' := by
  obtain ⟨hown, hheld⟩ := h.owner_of_conn hconn
  have hallowed : (SocketOp.closeFile c.fd).Allowed proc := by
    rw [hown]
    exact hheld
  obtain ⟨proc', hclose, -⟩ := SocketOp.owned h.reach.owned hallowed
  exact ⟨proc', hclose, h.reach.tail _ hallowed hclose⟩

theorem close {c : Conn} (h : Accounted listen s proc)
    (hconn : s.conn fd = some c)
    (hgone : s'.conn = Function.update s.conn fd none) :
    ∃ proc', proc.closeFile c.fd = some proc' ∧ Accounted listen s' proc' := by
  obtain ⟨proc', hclose, hreach⟩ := h.held_of_conn hconn
  obtain ⟨hsocket, howner⟩ := Process.closeFile_eq_some hclose
  rw [(h.owner_of_conn hconn).1] at howner
  refine ⟨proc', hclose, hreach, ?_, ?_⟩
  · intro p
    rw [hsocket]
    exact h.listener p
  · intro other
    rw [hgone, howner]
    by_cases heq : other = fd
    · rw [heq, Function.update_self, Function.update_self]
      rfl
    · rw [Function.update_of_ne heq, Function.update_of_ne (by simpa using heq)]
      exact h.conns other

theorem closeConn (h : Accounted listen s proc)
    (hgone : s'.conn = Function.update s.conn fd none) :
    ∃ proc', EventLoop.closeConn s fd proc = some proc' ∧
      Accounted listen s' proc' := by
  unfold EventLoop.closeConn
  cases hconn : s.conn fd with
  | some c => exact h.close hconn hgone
  | none =>
      have hsame : s'.conn = s.conn := by
        rw [hgone, Function.update_eq_self_iff.mpr hconn.symm]
      exact ⟨proc, rfl, h.congr fun other => by rw [hsame]⟩

theorem conn_eq_none (h : Accounted listen s proc) (hnew : fd ∉ proc.files) :
    s.conn fd = none := by
  cases hconn : s.conn fd with
  | none => rfl
  | some c =>
      have howns := Process.owner_of_held (h.owner_of_conn hconn).2
      exact absurd ((h.reach.owned.mem fd).mpr ⟨_, howns⟩) hnew

theorem openFile (h : Accounted listen s proc) (hnew : fd ∉ proc.files) {c : Conn}
    (hfd : c.fd = fd) (hconns : s'.conn = Function.update s.conn fd (some c)) :
    Accounted listen s' (proc.openFile fd) := by
  refine ⟨h.reach.tail (.openFile fd) hnew rfl, h.listener, ?_⟩
  have howner : (proc.openFile fd).owner =
      Function.update proc.owner (.inr fd) (some fd) := owner_setHeld proc fd true
  intro other
  rw [hconns, howner]
  by_cases heq : other = fd
  · rw [heq, Function.update_self, Function.update_self, Option.map_some, hfd]
  · rw [Function.update_of_ne heq, Function.update_of_ne (by simpa using heq)]
    exact h.conns other

theorem accept (h : Accounted listen s proc) (input : Option AcceptResult)
    (now : UInt64)
    (fresh : ∀ fd, input.bind AcceptResult.opened = some fd → fd ∉ proc.files) :
    ∃ proc', acceptPartFiles s proc input = some proc' ∧
      Accounted listen (acceptPart s input now) proc' := by
  match input with
  | none | some .failed => exact ⟨proc, rfl, h⟩
  | some (.blocking fd) =>
      have hnew := fresh fd rfl
      have hnone := h.conn_eq_none hnew
      -- the refused connection is opened and closed like any other
      let c : Conn := { fd := fd }
      have hopened : Accounted listen ((s.growConns fd).setConn fd (some c)) _ :=
        h.openFile hnew (c := c) rfl (by
          rw [Server.conn_setConn (Server.lt_growConns s fd), Server.conn_growConns])
      have hback : s.conn =
          Function.update ((s.growConns fd).setConn fd (some c)).conn fd none := by
        rw [Server.conn_setConn (Server.lt_growConns s fd), Server.conn_growConns,
          Function.update_idem, Function.update_eq_self_iff.mpr hnone.symm]
      refine hopened.close (c := c) ?_ hback
      rw [Server.conn_setConn (Server.lt_growConns s fd), Function.update_self]
  | some (.accepted fd) =>
      have hnew := fresh fd rfl
      refine ⟨proc.openFile fd, ?_, h.openFile hnew rfl (acceptNew_conn s fd now)⟩
      simp only [acceptPartFiles, acceptFiles, EventLoop.closeConn,
        h.conn_eq_none hnew]

end Accounted

/-! The functions with descriptors return whenever the functions without do, and
do what those do. -/

theorem Accounted.reset (h : Accounted listen s proc) (fd : Nat) :
    ∃ proc', resetFiles (s, proc) fd = some (s.resetConn fd, proc') ∧
      Accounted listen (s.resetConn fd) proc' := by
  obtain ⟨proc', hclosed, haccounted⟩ := h.closeConn (Server.conn_resetConn s fd)
  exact ⟨proc', Option.bind_eq_some_iff.mpr ⟨proc', hclosed, rfl⟩, haccounted⟩

theorem Accounted.served {between : Server} {closes : Bool}
    (h : Accounted listen s proc)
    (hresult : serveReady strtod s fd ready = some (between, traffic, closes)) :
    Accounted listen between proc := by
  rcases serveReady_cases hresult with ⟨rfl, rfl, rfl⟩ | ⟨c, c', hserved⟩
  · exact h
  · obtain ⟨mid, half, hread, hwrite⟩ := hserved.parts
    have hfd : c'.fd = c.fd := (writePart_keeps hwrite).1.trans (readPart_keeps hread).1
    refine h.congr fun other => ?_
    rw [hserved.conns, Function.update_apply]
    split
    next heq => rw [heq, hserved.found, Option.map_some, Option.map_some, hfd]
    next => rfl

theorem Accounted.handle (h : Accounted listen s proc)
    (hresult : handleReady strtod s fd ready = some (s', traffic)) :
    ∃ proc', handleReadyFiles strtod s fd ready proc = some (s', traffic, proc') ∧
      Accounted listen s' proc' := by
  obtain ⟨between, closes, hserved, rfl⟩ := handleReady_eq_some.mp hresult
  have hbetween := h.served hserved
  simp only [handleReadyFiles, hserved, Option.bind_eq_bind, Option.bind_some]
  cases closes with
  | false => exact ⟨proc, rfl, hbetween⟩
  | true =>
      obtain ⟨proc', hreset, haccounted⟩ := hbetween.reset fd
      refine ⟨proc', ?_, haccounted⟩
      simp only [if_true, hreset, Option.bind_some]

theorem Accounted.reapIdle (now : UInt64) (fuel : Nat) :
    ∀ {s s' : Server} {proc : Process}, Accounted listen s proc →
      EventLoop.reapIdle now fuel s = some s' →
        ∃ proc', reapIdleFiles now fuel (s, proc) = some (s', proc') ∧
          Accounted listen s' proc' := by
  induction fuel with
  | zero =>
      intro s s' proc _ hresult
      cases hresult
  | succ fuel ih =>
      intro s s' proc h hresult
      rw [reapIdle_succ] at hresult
      obtain ⟨due, hdue, hresult⟩ := Option.bind_eq_some_iff.mp hresult
      simp only [reapIdleFiles, reapIdleWith, hdue, Option.bind_eq_bind,
        Option.bind_some]
      cases due with
      | none =>
          cases hresult
          exact ⟨proc, rfl, h⟩
      | some fd =>
          obtain ⟨between, hreset, haccounted⟩ := h.reset fd
          simp only [hreset, Option.bind_some]
          exact ih haccounted hresult

theorem Accounted.timers (h : Accounted listen s proc)
    (hresult : processTimers s now = some s') :
    ∃ proc', processTimersFiles s now proc = some (s', proc') ∧
      Accounted listen s' proc' := by
  obtain ⟨reaped, hidle, hresult⟩ := Option.bind_eq_some_iff.mp hresult
  obtain ⟨db, hkeys, hresult⟩ := Option.bind_eq_some_iff.mp hresult
  cases hresult
  obtain ⟨proc', hfiles, haccounted⟩ := h.reapIdle now _ hidle
  exact ⟨proc', Option.bind_eq_some_iff.mpr ⟨(reaped, proc'), hfiles,
    Option.bind_eq_some_iff.mpr ⟨db, hkeys, rfl⟩⟩, haccounted.congr fun _ => rfl⟩

/-! Whole runs. -/

theorem Accounted.start (timeout : UInt64) {proc : Process}
    (h : openListener listen = some proc) :
    Accounted listen { idleTimeoutMs := timeout } proc := by
  have hmade : SocketReachable _ :=
    .tail .start (.make listenSock none) ⟨rfl, by simp⟩ rfl
  have hopened : SocketReachable _ :=
    .tail hmade (.openFile listen) List.not_mem_nil rfl
  have hreset : SocketReachable proc := by
    refine .tail hopened (.reset listenSock (some listen)) ⟨by rintro ⟨⟩, ?_⟩ h
    rintro _ ⟨⟩
    exact Function.update_self _ _ _
  cases h
  refine ⟨hreset, ?_, ?_⟩
  · intro p
    simp [Process.hand, Process.setSocket, Process.setHeld, Process.openFile,
      Function.update_apply]
  · intro fd
    simp [Process.owner, Process.hand, Process.setSocket, Process.setHeld,
      Process.openFile, Server.conn]

theorem Accounted.files {loop loop' : Loop} {action : Action}
    (h : Accounted listen loop.server proc) (hmove : Move strtod loop action loop')
    (hfresh : ∀ fd, action.opens = some fd → fd ∉ proc.files) :
    ∃ proc', action.files strtod loop.server proc = some proc' ∧
      Accounted listen loop'.server proc' := by
  cases hmove with
  | poll _ input now => exact h.accept input now hfresh
  | handle result =>
      obtain ⟨proc', hfiles, haccounted⟩ := h.handle result
      exact ⟨proc', by rw [Action.files, hfiles, Option.map_some], haccounted⟩
  | timers result =>
      obtain ⟨proc', hfiles, haccounted⟩ := h.timers result
      exact ⟨proc', by rw [Action.files, hfiles, Option.map_some], haccounted⟩
  | take _ => exact ⟨proc, rfl, h.congr fun _ => rfl⟩
  | finish _ _ => exact ⟨proc, rfl, h.congr fun _ => rfl⟩

theorem HostStep.accounted {host host' : Host}
    (hstep : HostStep strtod host host')
    (h : Accounted listen host.loop.server host.proc) :
    (∃ action, LoopStep strtod host.loop action host'.loop) ∧
      Accounted listen host'.loop.server host'.proc := by
  obtain ⟨action, hmove, hfresh, hfiles⟩ := hstep
  obtain ⟨_, hresult, haccounted⟩ := h.files hmove hfresh
  rw [hfiles] at hresult
  cases hresult
  exact ⟨⟨action, hmove, fun fd hopens => h.conn_eq_none (hfresh fd hopens)⟩,
    haccounted⟩

theorem HostReachable.accounted {host : Host}
    (h : HostReachable strtod listen host) :
    LoopReachable strtod host.loop ∧
      Accounted listen host.loop.server host.proc := by
  obtain ⟨timeout, proc, hopen, hsteps⟩ := h
  induction hsteps with
  | refl => exact ⟨⟨timeout, .refl⟩, .start timeout hopen⟩
  | tail _ hstep ih =>
      obtain ⟨⟨action, hloop⟩, haccounted⟩ := hstep.accounted ih.2
      exact ⟨ih.1.tail hloop, haccounted⟩

/-- The vector is destroyed from the front; what is gone counts as null. -/
theorem Accounted.destroyConns (before rest : List (Option Conn)) :
    ∀ {s : Server} {proc : Process}, Accounted listen s proc →
      s.conns = before.map (fun _ => none) ++ rest →
        ∃ s' proc', EventLoop.destroyConns rest proc = some proc' ∧
          Accounted listen s' proc' ∧ ∀ fd, s'.conn fd = none := by
  induction rest generalizing before with
  | nil =>
      intro s proc h hconns
      refine ⟨s, proc, rfl, h, ?_⟩
      intro fd
      rw [Server.conn, hconns, List.append_nil, List.getElem?_map]
      cases before[fd]? <;> rfl
  | cons up rest ih =>
      intro s proc h hconns
      have hup : s.conn before.length = up := by
        rw [Server.conn, hconns, List.getElem?_append_right (by simp)]
        simp
      cases up with
      | none =>
          refine ih (before ++ [none]) h ?_
          rw [hconns, List.map_append, List.append_assoc]
          rfl
      | some c =>
          have hlt := Server.lt_of_conn hup
          obtain ⟨between, hclose, haccounted⟩ :=
            h.close hup (Server.conn_setConn hlt none)
          obtain ⟨s', proc', hrest, hend⟩ :=
            ih (before ++ [none]) haccounted (by
              rw [Server.setConn, hconns, List.map_append, List.append_assoc,
                List.set_append_right _ _ (by simp)]
              simp)
          exact ⟨s', proc', Option.bind_eq_some_iff.mpr ⟨between, hclose, hrest⟩,
            hend⟩

theorem Accounted.destroy (h : Accounted listen s proc) :
    ∃ proc', destroyFiles s proc = some proc' ∧ proc'.files = [] := by
  obtain ⟨s', between, hconns, haccounted, hnone⟩ :=
    Accounted.destroyConns [] s.conns h rfl
  have hlistener := haccounted.listener listenSock
  rw [if_pos rfl] at hlistener
  have hallowed : (SocketOp.destroy listenSock).Allowed between := by
    rw [SocketOp.Allowed, hlistener]
    rintro ⟨⟩
  obtain ⟨proc', hdestroy, howned⟩ :=
    SocketOp.owned haccounted.reach.owned hallowed
  refine ⟨proc', Option.bind_eq_some_iff.mpr ⟨between, hconns, hdestroy⟩,
    Exclusive.eq_nil howned ?_⟩
  intro o
  rw [Process.destroy_eq_some hdestroy, Function.update_apply]
  split
  next => rfl
  next hne =>
    cases o with
    | inl p =>
        refine Process.owner_of_none ?_
        rw [haccounted.listener p, if_neg fun heq => hne (by rw [heq])]
    | inr fd => rw [← haccounted.conns fd, hnone fd, Option.map_none]

theorem Accounted.mem_files (h : Accounted listen s proc) (fd : Nat) :
    fd ∈ proc.files ↔ fd = listen ∨ s.conn fd ≠ none := by
  rw [h.reach.owned.mem fd]
  constructor
  · rintro ⟨o, howns⟩
    cases o with
    | inl p =>
        rw [Process.owner, h.listener p] at howns
        split at howns
        next => exact .inl (Option.some.inj howns).symm
        next => cases howns
    | inr n =>
        rw [← h.conns n, Option.map_eq_some_iff] at howns
        obtain ⟨c, hconn, rfl⟩ := howns
        rw [(h.owner_of_conn hconn).1, hconn]
        exact .inr (Option.some_ne_none c)
  · rintro (rfl | hopen)
    · exact ⟨.inl listenSock, Process.owner_of_socket (h.listener listenSock)⟩
    · obtain ⟨c, hconn⟩ := Option.ne_none_iff_exists'.mp hopen
      exact ⟨.inr fd, Process.owner_of_held (h.owner_of_conn hconn).2⟩

/-- A server never closes a descriptor that is not its own and never loses one:
what is open is the listener and one descriptor for each connection, the
connections it accepts are at free places, no close fails, and the destructor
leaves nothing open. -/
theorem descriptors_accounted {host : Host}
    (hreach : HostReachable strtod listen host) :
    LoopReachable strtod host.loop ∧
    (host.proc.files.Nodup ∧ host.loop.server.conn listen = none ∧
      ∀ fd, fd ∈ host.proc.files ↔
        fd = listen ∨ host.loop.server.conn fd ≠ none) ∧
    (∀ input, (∀ fd, AcceptResult.opened input = some fd → fd ∉ host.proc.files) →
      ∃ proc, acceptFiles host.loop.server host.proc input = some proc) ∧
    (∀ fd ready s traffic,
      handleReady strtod host.loop.server fd ready = some (s, traffic) →
        ∃ proc, handleReadyFiles strtod host.loop.server fd ready host.proc =
          some (s, traffic, proc)) ∧
    (∀ now s, processTimers host.loop.server now = some s →
      ∃ proc, processTimersFiles host.loop.server now host.proc =
        some (s, proc)) ∧
    ∃ proc, destroyFiles host.loop.server host.proc = some proc ∧
      proc.files = [] := by
  obtain ⟨hloop, h⟩ := hreach.accounted
  refine ⟨hloop, ⟨h.reach.owned.nodup, ?_, h.mem_files⟩, ?_, ?_, ?_, h.destroy⟩
  · cases hconn : host.loop.server.conn listen with
    | none => rfl
    | some c =>
        have hlistener := Process.owner_of_socket (h.listener listenSock)
        have hheld := Process.owner_of_held (h.owner_of_conn hconn).2
        cases h.reach.owned.unique _ _ listen hlistener hheld
  · intro input fresh
    obtain ⟨proc, hresult, -⟩ := h.accept (some input) 0 fresh
    exact ⟨proc, hresult⟩
  · intro fd ready s traffic hresult
    obtain ⟨proc, hfiles, -⟩ := h.handle hresult
    exact ⟨proc, hfiles⟩
  · intro now s hresult
    obtain ⟨proc, hfiles, -⟩ := h.timers hresult
    exact ⟨proc, hfiles⟩

theorem descriptors_accounted_client : ∃ host,
    HostReachable (fun _ => ({}, 0)) 3 host ∧
      host.loop.server.conn 4 ≠ none ∧ host.proc.files = [4, 3] ∧
      ∃ proc, destroyFiles host.loop.server host.proc = some proc ∧
        proc.files = [] := by
  obtain ⟨proc, hopen⟩ : ∃ proc, openListener 3 = some proc := ⟨_, rfl⟩
  have hfiles : proc.files = [3] := by
    cases hopen
    rfl
  have hstep : HostStep (fun _ => ({}, 0))
      ⟨⟨{ idleTimeoutMs := 30000 }, none⟩, proc⟩ ⟨_, proc.openFile 4⟩ :=
    ⟨_, .poll .nil (some (.accepted 4)) 0, by rintro _ ⟨⟩; rw [hfiles]; decide, rfl⟩
  have hreach : HostReachable _ 3 _ := ⟨30000, proc, hopen, .single hstep⟩
  exact ⟨_, hreach, by rintro ⟨⟩, congrArg (4 :: ·) hfiles,
    (descriptors_accounted hreach).2.2.2.2.2⟩

end MiniRedis.EventLoop
