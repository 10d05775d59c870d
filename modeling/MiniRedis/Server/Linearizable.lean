import MiniRedis.Server.History
import MiniRedis.Server.Service

namespace MiniRedis.EventLoop

open MiniRedis.Data MiniRedis.Ds MiniRedis.Store MiniRedis.Protocol
open MiniRedis.Server

/-! The requests of all connections take effect one at a time, in the order of
the run, and get the replies of one keyspace. -/

variable {strtod : Bytes → Double × Nat} {s : Server} {trace : List Event}
  {db db' : Database}

/-- The histories of a keyspace that serves one request after another. -/
inductive Lawful (strtod : Bytes → Double × Nat) :
    List (Nat × Exchange) → Keyspace → Prop
  | start : Lawful strtod [] fun _ => none
  | serve {history : List (Nat × Exchange)} {keyspace after : Keyspace}
      {exchange : Exchange} {value : Value}
      (before : Lawful strtod history keyspace) (fd : Nat)
      (reply : exchange.resp = value.encode)
      (allowed : keyspace.Allows exchange.clock
        (requestOf strtod exchange.body) value after) :
      Lawful strtod (history ++ [(fd, exchange)]) after

/-- The exchanges so far are lawful, and the database shows the keyspace they
lead to from the last of the readings on. -/
def Linearized (strtod : Bytes → Double × Nat) (db : Database)
    (history : List (Nat × Exchange)) (past : List UInt64) : Prop :=
  ∃ keyspace, Lawful strtod history keyspace ∧
    ∀ later, (∀ reading ∈ past, reading ≤ later) → Shows db keyspace later

section Steps

variable {history : List (Nat × Exchange)} {past : List UInt64} {fd : Nat}

theorem Shows.respond {keyspace : Keyspace} {body resp : Bytes} {clock : Clock}
    (h : Shows db keyspace clock.lookup) (horder : clock.lookup ≤ clock.act)
    (hrespond : respond strtod body db clock = some (db', resp)) :
    ∃ value after, resp = value.encode ∧
      keyspace.Allows clock (requestOf strtod body) value after ∧
      Shows db' after clock.act := by
  rcases @respond_cases strtod body db clock with
    ⟨cmd, hparse, heq⟩ | ⟨hmalformed, heq⟩
  · rw [heq] at hrespond
    rw [requestOf_parsed hparse]
    exact h.request horder hrespond
  · rw [heq] at hrespond
    cases hrespond
    rw [requestOf_malformed hmalformed]
    exact ⟨_, _, outErr_eq [] errArg _, .reject _ _, h.later horder⟩

theorem Linearized.congr (h : Linearized strtod db history past)
    (hkeeps : db.Inv → db'.Inv ∧ db'.stored = db.stored) :
    Linearized strtod db' history past := by
  obtain ⟨keyspace, hlawful, hshows⟩ := h
  refine ⟨keyspace, hlawful, ?_⟩
  intro later hlater
  have hbefore := hshows later hlater
  obtain ⟨hinv, hstored⟩ := hkeeps hbefore.inv
  exact hbefore.congr hinv hstored

theorem Linearized.exchange {exchange : Exchange}
    (h : Linearized strtod db history past)
    (hclock : (past ++ Exchange.readings exchange).Pairwise (· ≤ ·))
    (hrespond : respond strtod exchange.body db exchange.clock =
      some (db', exchange.resp)) :
    Linearized strtod db' (history ++ [(fd, exchange)])
      (past ++ Exchange.readings exchange) := by
  obtain ⟨keyspace, hlawful, hshows⟩ := h
  obtain ⟨_, hpair, hpast⟩ := List.pairwise_append.mp hclock
  have hbefore := hshows exchange.clock.lookup fun reading hmem =>
    hpast reading hmem _ (.head _)
  have horder := (List.pairwise_cons.mp hpair).1 _ (.head _)
  obtain ⟨value, after, hresp, hallows, hafter⟩ :=
    Shows.respond hbefore horder hrespond
  refine ⟨after, hlawful.serve fd hresp hallows, ?_⟩
  intro later hlater
  refine hafter.later (hlater _ ?_)
  exact List.mem_append_right _ (.tail _ (.head _))

theorem Linearized.reap {now : UInt64} (h : Linearized strtod db history past)
    (hclock : (past ++ [now]).Pairwise (· ≤ ·))
    (hreap : reapKeys now db = some db') :
    Linearized strtod db' history (past ++ [now]) := by
  obtain ⟨keyspace, hlawful, hshows⟩ := h
  refine ⟨keyspace, hlawful, ?_⟩
  intro later hlater
  have hnow := hshows now fun reading hmem =>
    (List.pairwise_append.mp hclock).2.2 reading hmem now (.head _)
  refine (hnow.reap kMaxWorks hreap).later (hlater now ?_)
  exact List.mem_append_right _ (.head _)

theorem Linearized.follows : Follows strtod (Linearized strtod) where
  exchange _ _ h hclock hrespond := h.exchange hclock hrespond
  reap h hclock hreap := h.reap hclock hreap
  take h htake := h.congr fun hinv => workerTake_keeps hinv htake
  finish h hfinish := h.congr fun hinv => workerFinish_keeps hinv hfinish

end Steps

def ofConn (fd : Nat) (history : List (Nat × Exchange)) : List Exchange :=
  (history.filter fun entry => entry.1 = fd).map Prod.snd

theorem ofConn_exchanges (fd : Nat) (trace : List Event) (event : Event) :
    ofConn fd (history (trace ++ [event])) =
      ofConn fd (history trace) ++ ofConn fd event.exchanges := by
  simp [ofConn, history]

theorem ofConn_handled (fd other : Nat) (traffic : Traffic) :
    ofConn fd (Event.handled other traffic).exchanges =
      if other = fd then traffic.exchanges else [] := by
  split
  next h => simp [ofConn, Event.exchanges, h, List.filter_map, Function.comp_def]
  next h => simp [ofConn, Event.exchanges, h, List.filter_map, Function.comp_def]

/-- A session is the end of what the history has of its descriptor. -/
theorem session_suffix (fd : Nat) (trace : List Event) :
    (session fd trace).exchanges <:+ ofConn fd (history trace) := by
  induction trace using List.reverseRecOn with
  | nil => exact List.nil_suffix
  | append_singleton trace event ih =>
      rw [session_append, ofConn_exchanges]
      cases event with
      | handled other traffic =>
          rw [ofConn_handled, observe]
          split
          next =>
            obtain ⟨earlier, hearlier⟩ := ih
            exact ⟨earlier, by rw [Traffic.append, ← hearlier, List.append_assoc]⟩
          next =>
            rw [List.append_nil]
            exact ih
      | accepted other =>
          change _ <:+ ofConn fd (history trace) ++ []
          rw [List.append_nil, observe]
          split
          next => exact List.nil_suffix
          next => exact ih
      | reaped | taken | freed =>
          change _ <:+ ofConn fd (history trace) ++ []
          rw [List.append_nil]
          exact ih

/-- Whatever the interleaving of connections, timers and workers, the executed
requests form one sequential history of the keyspace. What a live connection
was sent and is still to be sent are the replies of the end of its part of that
history, whose requests are the frames it has received, in order. -/
theorem server_linearizable (hrun : ServerRun strtod s trace)
    (hclock : (trace.flatMap Event.readings).Pairwise (· ≤ ·)) :
    ∃ keyspace, Lawful strtod (history trace) keyspace ∧
      (∀ now, (∀ reading ∈ trace.flatMap Event.readings, reading ≤ now) →
        ∀ key, absSlot (live now (s.db.stored key)) =
          liveCell now (keyspace key)) ∧
      ∀ fd c, s.conn fd = some c →
        ∃ exchanges, exchanges <:+ ofConn fd (history trace) ∧
          exchanges.map Exchange.body = (frames (session fd trace).received).1 ∧
          (session fd trace).sent ++ c.outgoing =
            exchanges.flatMap Exchange.reply := by
  have hserved := hrun.served
  have hstart : Linearized strtod { pool := some {} } [] [] :=
    ⟨_, .start, fun later _ => Shows.empty later⟩
  obtain ⟨keyspace, hlawful, hshows⟩ :=
    Linearized.follows.run hstart hclock hserved.replays
  refine ⟨keyspace, hlawful, ?_, ?_⟩
  · intro now hnow key
    exact (hshows now hnow).live_eq key
  · intro fd c hconn
    have hstream := hserved.streams fd c hconn
    exact ⟨_, session_suffix fd trace, hstream.bodies, hstream.outgoing⟩

theorem server_linearizable_crossing : ∃ s trace keyspace,
    ServerRun (fun _ => ({}, 0)) s trace ∧ history trace = crossing ∧
      Lawful (fun _ => ({}, 0)) crossing keyspace ∧
      ∀ key, absSlot (live 3 (s.db.stored key)) = liveCell 3 (keyspace key) := by
  obtain ⟨s, trace, hrun, hreadings, hhistory⟩ := crossing_run
  obtain ⟨keyspace, hlawful, hshown, -⟩ :=
    server_linearizable hrun (by rw [hreadings]; decide)
  rw [hhistory] at hlawful
  exact ⟨s, trace, keyspace, hrun, hhistory, hlawful,
    hshown 3 (by simp [hreadings])⟩

end MiniRedis.EventLoop
