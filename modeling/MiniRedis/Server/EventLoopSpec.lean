import MiniRedis.Server.EventLoop
import MiniRedis.Server.Framing

namespace MiniRedis.EventLoop

open MiniRedis.Data MiniRedis.Ds MiniRedis.Store MiniRedis.Protocol
open MiniRedis.Server

/-! What the steps of the event loop do to the table of connections. -/

variable {strtod : Bytes → Double × Nat} {s s' : Server} {fd : Nat}

namespace Server

theorem lt_of_conn {c : Conn} (h : s.conn fd = some c) :
    fd < s.conns.length := by
  by_contra hout
  rw [conn, List.getElem?_eq_none (not_lt.mp hout)] at h
  cases h

theorem conn_setConn (h : fd < s.conns.length) (c : Option Conn) :
    (s.setConn fd c).conn = Function.update s.conn fd c := by
  funext other
  by_cases hfd : other = fd
  · subst hfd
    simp [conn, setConn, h]
  · rw [Function.update_of_ne hfd, conn, setConn,
      List.getElem?_set_ne (Ne.symm hfd), conn]

theorem conn_resetConn (s : Server) (fd : Nat) :
    (s.resetConn fd).conn = Function.update s.conn fd none := by
  cases hconn : s.conn fd with
  | none =>
      have hsame : Function.update s.conn fd none = s.conn := by
        rw [← hconn, Function.update_eq_self]
      rw [hsame, resetConn, hconn]
  | some c =>
      rw [← conn_setConn (lt_of_conn hconn), resetConn, hconn]
      rfl

theorem mem_conns {c : Conn} (h : s.conn fd = some c) : some c ∈ s.conns :=
  List.mem_of_getElem? (Option.join_eq_some_iff.mp h)

theorem resetConn_db (s : Server) (fd : Nat) : (s.resetConn fd).db = s.db := by
  unfold resetConn
  split <;> rfl

theorem conn_growConns (s : Server) (fd : Nat) :
    (s.growConns fd).conn = s.conn := by
  unfold growConns
  split
  next =>
    funext other
    by_cases hin : other < s.conns.length
    · rw [conn, List.getElem?_append_left hin, conn]
    · rw [conn, List.getElem?_append_right (not_lt.mp hin), conn,
        List.getElem?_eq_none (not_lt.mp hin), List.getElem?_replicate]
      split <;> rfl
  next => rfl

theorem lt_growConns (s : Server) (fd : Nat) :
    fd < (s.growConns fd).conns.length := by
  unfold growConns
  split
  next =>
    simp only [List.length_append, List.length_replicate]
    omega
  next hin => exact not_le.mp hin

theorem conn_of_update {new : Option Conn} {other : Nat} {c : Conn}
    (hconns : s'.conn = Function.update s.conn fd new)
    (h : s'.conn other = some c) :
    (other = fd ∧ new = some c) ∨ (other ≠ fd ∧ s.conn other = some c) := by
  rw [hconns, Function.update_apply] at h
  split at h
  next hfd => exact .inl ⟨hfd, h⟩
  next hfd => exact .inr ⟨hfd, h⟩

end Server

theorem acceptNew_conn (s : Server) (fd : Nat) (now : UInt64) :
    (acceptNew s (.accepted fd) now).conn = Function.update s.conn fd
      (some { fd := fd, wantRead := true, lastActiveMs := now }) := by
  rw [acceptNew, Server.conn_setConn (Server.lt_growConns _ fd),
    Server.conn_growConns]
  rfl

theorem acceptNew_db (s : Server) (input : AcceptResult) (now : UInt64) :
    (acceptNew s input now).db = s.db := by
  cases input with
  | failed | blocking _ => rfl
  | accepted fd =>
      simp only [acceptNew, Server.setConn, Server.growConns]
      split <;> rfl

theorem acceptNew_idleTimeoutMs (s : Server) (fd : Nat) (now : UInt64) :
    (acceptNew s (.accepted fd) now).idleTimeoutMs = s.idleTimeoutMs := by
  simp only [acceptNew, Server.setConn, Server.growConns]
  split <;> rfl

theorem acceptPart_cases (s : Server) (results : List Ready)
    (input : Option AcceptResult) (now : UInt64) :
    (acceptPart s input now = s ∧ (Action.poll results input now).events = []) ∨
      ∃ fd, input = some (.accepted fd) := by
  rcases input with _ | _ | _ | fd
  · exact .inl ⟨rfl, rfl⟩
  · exact .inl ⟨rfl, rfl⟩
  · exact .inl ⟨rfl, rfl⟩
  · exact .inr ⟨fd, rfl⟩

structure ReadyServed (strtod : Bytes → Double × Nat) (s between : Server) (fd : Nat)
    (ready : Ready) (traffic : Traffic) (closes : Bool) (c c' : Conn) : Prop where
  found : s.conn fd = some c
  parts : ∃ mid half, readPart strtod ready
      { c with lastActiveMs := ready.now } s.db = some (mid, between.db, half) ∧
    writePart ready mid half = some (c', traffic)
  server : between = { s.setConn fd (some c') with
    idle := dlistInsertBefore (dlistDetach s.idle (some fd)) none (some fd)
    db := between.db }
  closes : closes =
    (c'.wantClose || ready.revents.pollErr || ready.revents.pollHup)

section Ready

variable {ready : Ready} {traffic : Traffic}

theorem serveReady_cases {between : Server} {closes : Bool}
    (h : serveReady strtod s fd ready = some (between, traffic, closes)) :
    (between = s ∧ traffic = {} ∧ closes = false) ∨
      ∃ c c', ReadyServed strtod s between fd ready traffic closes c c' := by
  unfold serveReady at h
  split at h
  next =>
    cases h
    exact .inl ⟨rfl, rfl, rfl⟩
  next =>
    cases hconn : s.conn fd with
    | none =>
        rw [hconn] at h
        cases h
        exact .inl ⟨rfl, rfl, rfl⟩
    | some c =>
        rw [hconn] at h
        obtain ⟨⟨mid, db, half⟩, hread, h⟩ := Option.bind_eq_some_iff.mp h
        obtain ⟨⟨c', whole⟩, hwrite, h⟩ := Option.bind_eq_some_iff.mp h
        cases h
        exact .inr ⟨c, c', hconn, ⟨mid, half, hread, hwrite⟩, rfl, rfl⟩

theorem ReadyServed.conns {between : Server} {closes : Bool} {c c' : Conn}
    (h : ReadyServed strtod s between fd ready traffic closes c c') :
    between.conn = Function.update s.conn fd (some c') := by
  rw [h.server]
  exact Server.conn_setConn (Server.lt_of_conn h.found) (some c')

theorem handleReady_eq_some :
    handleReady strtod s fd ready = some (s', traffic) ↔ ∃ between closes,
      serveReady strtod s fd ready = some (between, traffic, closes) ∧
        s' = if closes then between.resetConn fd else between := by
  constructor
  · intro h
    obtain ⟨⟨between, whole, closes⟩, hserved, h⟩ := Option.bind_eq_some_iff.mp h
    cases h
    exact ⟨between, closes, hserved, rfl⟩
  · rintro ⟨between, closes, hserved, rfl⟩
    exact Option.bind_eq_some_iff.mpr ⟨_, hserved, rfl⟩

/-- The handling of a connection: the read, the write, and the connection kept
unless it is to be closed. -/
structure Handled (strtod : Bytes → Double × Nat) (s s' : Server) (fd : Nat)
    (ready : Ready) (traffic : Traffic) (c c' : Conn) : Prop where
  found : s.conn fd = some c
  parts : ∃ between half, readPart strtod ready
      { c with lastActiveMs := ready.now } s.db = some (between, s'.db, half) ∧
    writePart ready between half = some (c', traffic)
  conns : s'.conn = Function.update s.conn fd
    (if c'.wantClose || ready.revents.pollErr || ready.revents.pollHup then
      none
    else
      some c')

theorem handleReady_cases
    (h : handleReady strtod s fd ready = some (s', traffic)) :
    (s' = s ∧ traffic = {}) ∨
      ∃ c c', Handled strtod s s' fd ready traffic c c' := by
  obtain ⟨between, closes, hresult, rfl⟩ := handleReady_eq_some.mp h
  rcases serveReady_cases hresult with ⟨rfl, rfl, rfl⟩ | ⟨c, c', hserved⟩
  · exact .inl ⟨rfl, rfl⟩
  · refine .inr ⟨c, c', hserved.found, ?_, ?_⟩
    · obtain ⟨mid, half, hread, hwrite⟩ := hserved.parts
      refine ⟨mid, half, ?_, hwrite⟩
      rw [hread]
      split
      · rw [Server.resetConn_db]
      · rfl
    · rw [← hserved.closes]
      split
      · rw [Server.conn_resetConn, hserved.conns, Function.update_idem]
      · exact hserved.conns

end Ready

theorem reapIdle_succ (now : UInt64) (fuel : Nat) (s : Server) :
    reapIdle now (fuel + 1) s = (idleDue s now).bind fun due =>
      match due with
      | none => some s
      | some fd => reapIdle now fuel (s.resetConn fd) := by
  rfl

theorem reapIdle_conn (now : UInt64) (fuel : Nat) :
    ∀ {s s' : Server}, reapIdle now fuel s = some s' →
      s'.db = s.db ∧ ∀ fd, s'.conn fd = s.conn fd ∨ s'.conn fd = none := by
  induction fuel with
  | zero =>
      intro s s' h
      cases h
  | succ fuel ih =>
      intro s s' h
      rw [reapIdle_succ] at h
      obtain ⟨due, -, h⟩ := Option.bind_eq_some_iff.mp h
      cases due with
      | none =>
          cases h
          exact ⟨rfl, fun _ => .inl rfl⟩
      | some fd =>
          obtain ⟨hdb, hconns⟩ := ih h
          refine ⟨?_, ?_⟩
          · rw [hdb, Server.resetConn_db]
          · intro other
            rcases hconns other with hsame | hnone
            · rw [hsame, Server.conn_resetConn, Function.update_apply]
              split
              · exact .inr rfl
              · exact .inl rfl
            · exact .inr hnone

theorem processTimers_conn {now : UInt64}
    (h : processTimers s now = some s') :
    reapKeys now s.db = some s'.db ∧
      ∀ fd, s'.conn fd = s.conn fd ∨ s'.conn fd = none := by
  obtain ⟨reaped, hidle, h⟩ := Option.bind_eq_some_iff.mp h
  obtain ⟨db, hkeys, h⟩ := Option.bind_eq_some_iff.mp h
  cases h
  obtain ⟨hdb, hconns⟩ := reapIdle_conn now _ hidle
  rw [hdb] at hkeys
  exact ⟨hkeys, hconns⟩

end MiniRedis.EventLoop
