import MiniRedis.Ds.DList
import MiniRedis.Server.Connection
import Mathlib.Data.List.Forall2
import Mathlib.Logic.Relation

namespace MiniRedis.EventLoop

open MiniRedis.Data MiniRedis.Ds MiniRedis.Store MiniRedis.Protocol
open MiniRedis.Server

/-! The event loop. What the kernel answers is an argument of each step. -/

/-- In `idle` the head `idle_list_` is `none`, and the `idle_node` of the
connection at `conns_[fd]` is `some fd`. -/
structure Server where
  conns : List (Option Conn) := []
  db : Database := { pool := some {} }
  idle : DList (Option Nat) := {}
  idleTimeoutMs : UInt64

namespace Server

/-- `conns_[fd]`, null outside the vector. -/
def conn (s : Server) (fd : Nat) : Option Conn := s.conns[fd]?.join

def setConn (s : Server) (fd : Nat) (c : Option Conn) : Server :=
  { s with conns := s.conns.set fd c }

/-- `conns_[fd].reset()`, with `~Conn`. -/
def resetConn (s : Server) (fd : Nat) : Server :=
  match s.conn fd with
  | some _ => { s.setConn fd none with idle := dlistDetach s.idle (some fd) }
  | none => s

/-- `conns_.resize(fd + 1)` if `fd` is past the end. -/
def growConns (s : Server) (fd : Nat) : Server :=
  if fd ≥ s.conns.length then
    { s with conns :=
        s.conns ++ List.replicate (fd + 1 - s.conns.length) none }
  else
    s

end Server

/-- What `accept` and then `fcntl` answered. -/
inductive AcceptResult
  | failed
  | blocking (fd : Nat)
  | accepted (fd : Nat)

def AcceptResult.opened : AcceptResult → Option Nat
  | failed => none
  | blocking fd | accepted fd => some fd

def acceptNew (s : Server) (input : AcceptResult) (now : UInt64) : Server :=
  match input with
  | .failed | .blocking _ => s
  | .accepted fd =>
      let conn : Conn := { fd := fd, wantRead := true, lastActiveMs := now }
      let idle := dlistInit s.idle (some fd)
      let s := { s with idle := dlistInsertBefore idle none (some fd) }
      (s.growConns fd).setConn fd (some conn)

structure PollFd where
  fd : Nat
  pollIn : Bool
  pollOut : Bool

/-- The entries of `poll_args` after the listener's. -/
def pollArgs (s : Server) : List PollFd :=
  s.conns.filterMap fun up =>
    up.map fun c => ⟨c.fd, c.wantRead, c.wantWrite⟩

structure Revents where
  pollIn : Bool := false
  pollOut : Bool := false
  pollErr : Bool := false
  pollHup : Bool := false
  deriving DecidableEq

/-- What the kernel answers for one connection, and the clock readings of its
handling. -/
structure Ready where
  revents : Revents
  now : UInt64
  read : ReadResult
  write : WriteResult
  clocks : Nat → Clock

structure Traffic where
  received : Bytes := []
  exchanges : List Exchange := []
  sent : Bytes := []

/-- `if(re & POLLIN) handle_read(c);` -/
def readPart (strtod : Bytes → Double × Nat) (ready : Ready) (c : Conn)
    (db : Database) : Option (Conn × Database × Traffic) :=
  if ready.revents.pollIn then do
    let (c, db, exchanges) ← handleRead strtod c db ready.read ready.clocks
    some (c, db, { received := ready.read.chunk, exchanges := exchanges })
  else
    some (c, db, {})

/-- `if(re & POLLOUT) handle_write(c);` -/
def writePart (ready : Ready) (c : Conn) (traffic : Traffic) :
    Option (Conn × Traffic) :=
  if ready.revents.pollOut then do
    let (c, sent) ← handleWrite c ready.write
    some (c, { traffic with sent := sent })
  else
    some (c, traffic)

/-- The loop body of `run` for one entry of `poll_args`, up to the test that
closes the connection. -/
def serveReady (strtod : Bytes → Double × Nat) (s : Server) (fd : Nat)
    (ready : Ready) : Option (Server × Traffic × Bool) :=
  if ready.revents = {} then
    some (s, {}, false)
  else
    match s.conn fd with
    | none => some (s, {}, false)
    | some c => do
        let c := { c with lastActiveMs := ready.now }
        let idle := dlistDetach s.idle (some fd)
        let s := { s with idle := dlistInsertBefore idle none (some fd) }
        let (c, db, traffic) ← readPart strtod ready c s.db
        let (c, traffic) ← writePart ready c traffic
        some ({ s.setConn fd (some c) with db := db }, traffic,
          c.wantClose || ready.revents.pollErr || ready.revents.pollHup)

def handleReady (strtod : Bytes → Double × Nat) (s : Server) (fd : Nat)
    (ready : Ready) : Option (Server × Traffic) := do
  let (s, traffic, closes) ← serveReady strtod s fd ready
  some (if closes then s.resetConn fd else s, traffic)

def nextIdleMs (s : Server) : Option Nat :=
  if dlistEmpty s.idle none then
    some uint64Max
  else do
    let fd ← s.idle.next none
    let conn ← s.conn fd
    some (conn.lastActiveMs + s.idleTimeoutMs).toNat

/-- `next_ms` of `next_timer_ms`, from the idle list and the heap. -/
def nextMs (s : Server) : Option Nat := do
  let nextMs ← nextIdleMs s
  match s.db.ttl.items.head? with
  | some item => some (if item.val < nextMs then item.val else nextMs)
  | none => some nextMs

def nextTimerMs (s : Server) (now : UInt64) : Option Int := do
  let nextMs ← nextMs s
  -- the value of `next_ms` without timers, but a deadline can have it too
  if nextMs = uint64Max then
    some (-1)
  else if nextMs ≤ now.toNat then
    some 0
  else
    some (castInt32 (nextMs - now.toNat))

def idleDue (s : Server) (now : UInt64) : Option (Option Nat) :=
  if dlistEmpty s.idle none then
    some none
  else do
    let fd ← s.idle.next none
    let conn ← s.conn fd
    if conn.lastActiveMs + s.idleTimeoutMs > now then
      some none
    else
      some (some conn.fd)

/-- The loop of `process_timers` over the idle connections, where `reset` is
`conns_[fd].reset()`. -/
def reapIdleWith {σ : Type} (server : σ → Server) (reset : σ → Nat → Option σ)
    (now : UInt64) : Nat → σ → Option σ
  | 0, _ => none
  | fuel + 1, state => do
      match ← idleDue (server state) now with
      | none => some state
      | some fd => do
          let state ← reset state fd
          reapIdleWith server reset now fuel state

def reapIdle (now : UInt64) (fuel : Nat) (s : Server) : Option Server :=
  reapIdleWith id (fun s fd => some (s.resetConn fd)) now fuel s

def processTimers (s : Server) (now : UInt64) : Option Server := do
  let s ← reapIdle now (s.conns.length + 1) s
  let db ← reapKeys now s.db
  some { s with db := db }

/-- A state of `run`: before `poll`, or with the connections that are still to
be handled. -/
structure Loop where
  server : Server
  pending : Option (List (Nat × Ready)) := none

/-- An answer of `poll` for one entry, and what the calls it leads to can
answer. -/
structure Polled (arg : PollFd) (ready : Ready) : Prop where
  pollIn : ready.revents.pollIn = true → arg.pollIn = true
  pollOut : ready.revents.pollOut = true → arg.pollOut = true
  size : ready.read.chunk.length ≤ kReadSize

/-- `if(poll_args[0].revents & POLLIN) accept_new();` -/
def acceptPart (s : Server) (input : Option AcceptResult) (now : UInt64) :
    Server :=
  match input with
  | some input => acceptNew s input now
  | none => s

inductive Event
  | accepted (fd : Nat)
  | handled (fd : Nat) (traffic : Traffic)
  | reaped (now : UInt64)
  | taken
  | freed (ent : Ptr)

/-- A step of `run` or of a worker, with what the kernel and the clock answered. -/
inductive Action
  | poll (results : List Ready) (input : Option AcceptResult) (now : UInt64)
  | handle (fd : Nat) (ready : Ready) (traffic : Traffic)
  | timers (now : UInt64)
  | take
  | finish (ent : Ptr)

namespace Action

def opens : Action → Option Nat
  | poll _ input _ => input.bind AcceptResult.opened
  | _ => none

def events : Action → List Event
  | poll _ (some (.accepted fd)) _ => [.accepted fd]
  | poll _ _ _ => []
  | handle fd _ traffic => [.handled fd traffic]
  | timers now => [.reaped now]
  | take => [.taken]
  | finish ent => [.freed ent]

def time (last : UInt64) : Action → UInt64
  | poll _ _ now | timers now => now
  | handle _ ready _ => ready.now
  | take | finish _ => last

end Action

/-- The steps of `run` in their order, and those of the workers at any time. -/
inductive Move (strtod : Bytes → Double × Nat) : Loop → Action → Loop → Prop
  | poll {s : Server} {results : List Ready}
      (polled : List.Forall₂ Polled (pollArgs s) results)
      (input : Option AcceptResult) (now : UInt64) :
      Move strtod ⟨s, none⟩ (.poll results input now)
        ⟨acceptPart s input now,
          some (((pollArgs s).map PollFd.fd).zip results)⟩
  | handle {s s' : Server} {fd : Nat} {ready : Ready} {traffic : Traffic}
      {rest : List (Nat × Ready)}
      (result : handleReady strtod s fd ready = some (s', traffic)) :
      Move strtod ⟨s, some ((fd, ready) :: rest)⟩ (.handle fd ready traffic)
        ⟨s', some rest⟩
  | timers {s s' : Server} {now : UInt64}
      (result : processTimers s now = some s') :
      Move strtod ⟨s, some []⟩ (.timers now) ⟨s', none⟩
  | take {s : Server} {pending : Option (List (Nat × Ready))} {db : Database}
      (result : workerTake s.db = some db) :
      Move strtod ⟨s, pending⟩ .take ⟨{ s with db := db }, pending⟩
  | finish {s : Server} {pending : Option (List (Nat × Ready))}
      {db : Database} (ent : Ptr) (result : workerFinish s.db ent = some db) :
      Move strtod ⟨s, pending⟩ (.finish ent) ⟨{ s with db := db }, pending⟩

/-- The kernel opens descriptors that no connection has. -/
structure LoopStep (strtod : Bytes → Double × Nat) (loop : Loop) (action : Action)
    (loop' : Loop) : Prop where
  move : Move strtod loop action loop'
  fresh : ∀ fd, action.opens = some fd → loop.server.conn fd = none

namespace LoopStep

variable {strtod : Bytes → Double × Nat} {s s' : Server}
  {pending : Option (List (Nat × Ready))} {db : Database}

theorem poll {results : List Ready}
    (polled : List.Forall₂ Polled (pollArgs s) results)
    (input : Option AcceptResult) (now : UInt64)
    (fresh : ∀ fd, input.bind AcceptResult.opened = some fd → s.conn fd = none) :
    LoopStep strtod ⟨s, none⟩ (.poll results input now)
      ⟨acceptPart s input now, some (((pollArgs s).map PollFd.fd).zip results)⟩ :=
  ⟨.poll polled input now, fresh⟩

theorem poll_single {arg : PollFd} {ready : Ready} (hargs : pollArgs s = [arg])
    (hpolled : Polled arg ready) :
    LoopStep strtod ⟨s, none⟩ (.poll [ready] none 0) ⟨s, some [(arg.fd, ready)]⟩ := by
  have hall : List.Forall₂ Polled (pollArgs s) [ready] := by
    rw [hargs]
    exact .cons hpolled .nil
  have hpoll := @LoopStep.poll strtod s _ hall none 0 (by rintro _ ⟨⟩)
  rw [hargs] at hpoll
  exact hpoll

theorem handle {fd : Nat} {ready : Ready} {traffic : Traffic}
    {rest : List (Nat × Ready)}
    (result : handleReady strtod s fd ready = some (s', traffic)) :
    LoopStep strtod ⟨s, some ((fd, ready) :: rest)⟩ (.handle fd ready traffic)
      ⟨s', some rest⟩ :=
  ⟨.handle result, by rintro _ ⟨⟩⟩

theorem timers {now : UInt64} (result : processTimers s now = some s') :
    LoopStep strtod ⟨s, some []⟩ (.timers now) ⟨s', none⟩ :=
  ⟨.timers result, by rintro _ ⟨⟩⟩

theorem take (result : workerTake s.db = some db) :
    LoopStep strtod ⟨s, pending⟩ .take ⟨{ s with db := db }, pending⟩ :=
  ⟨.take result, by rintro _ ⟨⟩⟩

theorem finish (ent : Ptr) (result : workerFinish s.db ent = some db) :
    LoopStep strtod ⟨s, pending⟩ (.finish ent) ⟨{ s with db := db }, pending⟩ :=
  ⟨.finish ent result, by rintro _ ⟨⟩⟩

end LoopStep

def LoopReachable (strtod : Bytes → Double × Nat) (loop : Loop) : Prop :=
  ∃ timeout, Relation.ReflTransGen
    (fun loop loop' => ∃ action, LoopStep strtod loop action loop')
    ⟨{ idleTimeoutMs := timeout }, none⟩ loop

theorem LoopReachable.tail {strtod : Bytes → Double × Nat} {loop loop' : Loop}
    {action : Action} (h : LoopReachable strtod loop)
    (hstep : LoopStep strtod loop action loop') : LoopReachable strtod loop' := by
  obtain ⟨timeout, hsteps⟩ := h
  exact ⟨timeout, hsteps.tail ⟨action, hstep⟩⟩

end MiniRedis.EventLoop
