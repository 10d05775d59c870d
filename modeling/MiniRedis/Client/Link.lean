import MiniRedis.Client.SendCommand
import MiniRedis.Server.LoopEvents

namespace MiniRedis.Client

open MiniRedis.Data MiniRedis.Ds MiniRedis.Store MiniRedis.Protocol
open MiniRedis.Server MiniRedis.EventLoop

/-! The client and the server, with the bytes that are under way between
them. -/

inductive Phase
  | waiting
  | opened
  | closed

/-- `session` is what the server has seen of the connection, up to its close;
the descriptor can serve other clients before and after. -/
structure World where
  loop : Loop
  trace : List Event
  phase : Phase := .waiting
  session : Traffic := {}
  toServer : Bytes := []
  toClient : Bytes := []
  stdout : Bytes := []
  stderr : Bytes := []

/-- What a call of the client does. `write` and `read` can fail at any time, and
`read` can report the end of the stream. -/
inductive Effect : World → (request : Call) → Answer request → World → Prop
  | wrote (w : World) (buffer : Bytes) (count : Fin (buffer.length + 1)) :
      Effect w (.write buffer) (some count)
        { w with toServer := w.toServer ++ buffer.take count }
  | writeFailed (w : World) (buffer : Bytes) : Effect w (.write buffer) none w
  | read (w : World) {count : Nat} (chunk : { chunk : Bytes // chunk.length ≤ count })
      {rest : Bytes} (hclient : w.toClient = chunk.val ++ rest) :
      Effect w (.read count) (some chunk) { w with toClient := rest }
  | readFailed (w : World) (count : Nat) : Effect w (.read count) none w
  | print (w : World) (text : Bytes) :
      Effect w (.print text) () { w with stdout := w.stdout ++ text }
  | complain (w : World) (text : Bytes) :
      Effect w (.complain text) () { w with stderr := w.stderr ++ text }
  | close (w : World) : Effect w .close () w

/-- A step of the server, which accepts the connection at descriptor `fd`. It
receives what the client has written and sends what the client can read. All
other connections are unrestricted. -/
inductive Serves (strtod : Bytes → Double × Nat) (fd : Nat) :
    World → World → Prop
  | elsewhere {w : World} {events : List Event} {loop' : Loop}
      (step : LoopEmits strtod w.loop events loop') (hphase : w.phase ≠ .opened) :
      Serves strtod fd w { w with loop := loop', trace := w.trace ++ events }
  | accepted {w : World} {loop' : Loop}
      (step : LoopEmits strtod w.loop [.accepted fd] loop')
      (hphase : w.phase = .waiting) :
      Serves strtod fd w
        { w with loop := loop', trace := w.trace ++ [.accepted fd], phase := .opened }
  | served {w : World} {events : List Event} {loop' : Loop} {rest : Bytes}
      (step : LoopEmits strtod w.loop events loop') (hphase : w.phase = .opened)
      (hserver : w.toServer = (session fd events).received ++ rest) :
      Serves strtod fd w
        { w with
          loop := loop'
          trace := w.trace ++ events
          phase := if (loop'.server.conn fd).isSome then .opened else .closed
          session := w.session.append (session fd events)
          toServer := rest
          toClient := w.toClient ++ (session fd events).sent }

def setting (strtod : Bytes → Double × Nat) (fd : Nat) :
    Program.Setting Answer World where
  effect := Effect
  others := Serves strtod fd

variable {strtod : Bytes → Double × Nat} {fd : Nat} {w w' : World}

structure Linked (strtod : Bytes → Double × Nat) (fd : Nat) (w : World) :
    Prop where
  run : LoopRun strtod w.loop w.trace
  waiting : w.phase = .waiting → w.session = {}
  opened : w.phase = .opened → ∃ c, w.loop.server.conn fd = some c ∧
    w.session = session fd w.trace
  bodies : w.session.exchanges.map Exchange.body =
    (frames w.session.received).1
  replies : w.session.sent <+: w.session.exchanges.flatMap Exchange.reply

theorem LoopEmits.accepted_conn {loop loop' : Loop}
    (h : LoopEmits strtod loop [.accepted fd] loop') :
    ∃ c, loop'.server.conn fd = some c := by
  obtain ⟨action, hstep, hevents⟩ := h
  cases hstep.move with
  | @poll s results _ input now =>
      rcases acceptPart_cases s results input now with ⟨-, hnone⟩ | ⟨other, rfl⟩
      · rw [hnone] at hevents
        cases hevents
      · cases hevents
        exact ⟨_, by rw [acceptPart, acceptNew_conn, Function.update_self]⟩
  | _ => cases hevents

theorem Linked.serves (h : Linked strtod fd w) (hstep : Serves strtod fd w w') :
    Linked strtod fd w' := by
  cases hstep with
  | elsewhere step hphase =>
      exact ⟨h.run.emit step, h.waiting, fun hopen => absurd hopen hphase,
        h.bodies, h.replies⟩
  | accepted step hphase =>
      have hnone := h.waiting hphase
      obtain ⟨c, hconn⟩ := LoopEmits.accepted_conn step
      refine ⟨h.run.emit step, by rintro ⟨⟩, ?_, h.bodies, h.replies⟩
      intro _
      refine ⟨c, hconn, ?_⟩
      rw [session_append, observe, if_pos rfl]
      exact hnone
  | @served events loop' rest step hphase hserver =>
      obtain ⟨c, hconn, hsession⟩ := h.opened hphase
      have hbefore := h.run.serverRun.served.streams fd c hconn
      rw [← hsession] at hbefore
      obtain ⟨hfold, c', hafter, hend⟩ := step.stream hconn hbefore
      have htrace : w.session.append (session fd events) =
          session fd (w.trace ++ events) := by
        rw [← hfold, hsession, session, session, List.foldl_append]
      refine ⟨h.run.emit step, ?_, ?_, hafter.bodies, ?_⟩
      · intro hwaiting
        simp only at hwaiting
        split at hwaiting <;> cases hwaiting
      · intro hopen
        simp only at hopen
        split at hopen
        next hsome =>
          obtain ⟨d, hd⟩ := Option.isSome_iff_exists.mp hsome
          exact ⟨d, hd, htrace⟩
        next => cases hopen
      · exact ⟨c'.outgoing, hafter.outgoing⟩

/-- The client has written `written` and read `read`, and has printed `out`. -/
structure Talk (strtod : Bytes → Double × Nat) (fd : Nat)
    (written read out : Bytes) (w : World) : Prop extends Linked strtod fd w where
  up : w.session.received ++ w.toServer = written
  down : w.session.sent = read ++ w.toClient
  shown : w.stdout = out

section Talk

variable {written read out : Bytes}

theorem Talk.stable :
    Program.Stable (setting strtod fd) (Talk strtod fd written read out) := by
  intro w w' hstep h
  refine ⟨h.toLinked.serves hstep, ?_, ?_, ?_⟩
  · cases hstep with
    | elsewhere => exact h.up
    | accepted => exact h.up
    | served _ _ hserver =>
        rw [← h.up, hserver, Traffic.append, List.append_assoc]
  · cases hstep with
    | elsewhere => exact h.down
    | accepted => exact h.down
    | served => simp only [Traffic.append, h.down, List.append_assoc]
  · cases hstep <;> exact h.shown

theorem Talk.wrote (h : Talk strtod fd written read out w) (chunk : Bytes) :
    Talk strtod fd (written ++ chunk) read out
      { w with toServer := w.toServer ++ chunk } :=
  ⟨⟨h.run, h.waiting, h.opened, h.bodies, h.replies⟩,
    by rw [← h.up, List.append_assoc], h.down, h.shown⟩

theorem Talk.got (h : Talk strtod fd written read out w) {chunk rest : Bytes}
    (hclient : w.toClient = chunk ++ rest) :
    Talk strtod fd written (read ++ chunk) out { w with toClient := rest } :=
  ⟨⟨h.run, h.waiting, h.opened, h.bodies, h.replies⟩, h.up,
    by rw [List.append_assoc, ← hclient]; exact h.down, h.shown⟩

theorem Talk.print (h : Talk strtod fd written read out w) (text : Bytes) :
    Talk strtod fd written read (out ++ text)
      { w with stdout := w.stdout ++ text } :=
  ⟨⟨h.run, h.waiting, h.opened, h.bodies, h.replies⟩, h.up, h.down,
    by rw [← h.shown]⟩

theorem Talk.complain (h : Talk strtod fd written read out w) (text : Bytes) :
    Talk strtod fd written read out { w with stderr := w.stderr ++ text } :=
  ⟨⟨h.run, h.waiting, h.opened, h.bodies, h.replies⟩, h.up, h.down,
    h.shown⟩

end Talk

/-! Frames of a part of a stream. -/

theorem frames_flatMap_frame {bodies : List Bytes}
    (hfit : ∀ body ∈ bodies, body.length ≤ maxMsg) :
    frames (bodies.flatMap frame) = (bodies, []) := by
  have h : frames (bodies.flatMap frame ++ []) = (bodies, []) :=
    frames_flatMap hfit rfl
  rwa [List.append_nil] at h

theorem frames_part {bodies : List Bytes} {stream later : Bytes}
    (hfit : ∀ body ∈ bodies, body.length ≤ maxMsg)
    (h : stream ++ later = bodies.flatMap frame) :
    ∃ rest, bodies = (frames stream).1 ++ rest ∧ (rest = [] → later = []) := by
  have hframes := frames_append stream later
  rw [h, frames_flatMap_frame hfit, Prod.mk.injEq] at hframes
  refine ⟨_, hframes.1, ?_⟩
  intro hnone
  have hjoin := frames_join ((frames stream).2 ++ later)
  rw [hnone, ← hframes.2, List.flatMap_nil] at hjoin
  exact (List.append_eq_nil_iff.mp hjoin.symm).2

theorem frame_append_inj {body body' rest rest' : Bytes}
    (hbody : body.length < 2 ^ 32) (hbody' : body'.length < 2 ^ 32)
    (h : frame body ++ rest = frame body' ++ rest') :
    body = body' ∧ rest = rest' := by
  rw [frame, frame, List.append_assoc, List.append_assoc] at h
  obtain ⟨hlength, htail⟩ := leBytes_append_inj (by simpa using hbody)
    (by simpa using hbody') h
  exact List.append_inj htail hlength

theorem flatMap_frame_part {items others : List Bytes} {rest : Bytes}
    (hitems : ∀ item ∈ items, item.length < 2 ^ 32)
    (hothers : ∀ other ∈ others, other.length < 2 ^ 32)
    (h : items.flatMap frame ++ rest = others.flatMap frame) :
    ∃ later, others = items ++ later ∧ rest = later.flatMap frame := by
  induction items generalizing others with
  | nil => exact ⟨others, rfl, h⟩
  | cons item items ih =>
      obtain ⟨hitem, hitems⟩ := List.forall_mem_cons.mp hitems
      cases others with
      | nil =>
          have hlength := congrArg List.length h
          rw [List.flatMap_cons, List.length_append, List.length_append,
            length_frame, List.flatMap_nil, List.length_nil] at hlength
          omega
      | cons other others =>
          obtain ⟨hother, hlater⟩ := List.forall_mem_cons.mp hothers
          rw [List.flatMap_cons, List.flatMap_cons, List.append_assoc] at h
          obtain ⟨rfl, htail⟩ := frame_append_inj hitem hother h
          obtain ⟨later, rfl, hrest⟩ := ih hitems hlater htail
          exact ⟨later, rfl, hrest⟩

def World.replies (w : World) : List Bytes := w.session.exchanges.map Exchange.resp

/-- The length of every reply fits its header. -/
def World.Small (w : World) : Prop := ∀ resp ∈ w.replies, resp.length < 2 ^ 32

theorem World.flatMap_replies (w : World) :
    w.replies.flatMap frame = w.session.exchanges.flatMap Exchange.reply := by
  rw [replies, List.flatMap_map]
  rfl

section Dialogue

variable {asked replies : List Bytes} {written read out : Bytes}

/-- The server executes what it was asked, in order. -/
theorem Talk.executed (h : Talk strtod fd written read out w)
    (hfit : ∀ body ∈ asked, body.length ≤ maxMsg)
    (hasked : written <+: asked.flatMap frame) :
    w.session.exchanges.map Exchange.body <+: asked := by
  obtain ⟨later, hlater⟩ := hasked
  rw [← h.up, List.append_assoc] at hlater
  obtain ⟨rest, hrest, -⟩ := frames_part hfit hlater
  rw [h.bodies, hrest]
  exact List.prefix_append _ _

theorem Talk.answered (h : Talk strtod fd written read out w)
    (hw : w.Small) (hsmall : ∀ resp ∈ replies, resp.length ≤ maxMsg)
    (hread : replies.flatMap frame <+: read) : replies <+: w.replies := by
  obtain ⟨part, rfl⟩ := hread
  obtain ⟨later, hlater⟩ := h.replies
  rw [h.down, List.append_assoc, List.append_assoc, ← World.flatMap_replies]
    at hlater
  obtain ⟨rest, hrest, -⟩ := flatMap_frame_part
    (fun resp hmem => Nat.lt_of_le_of_lt (hsmall resp hmem) (by decide)) hw hlater
  rw [hrest]
  exact List.prefix_append _ _

end Dialogue

end MiniRedis.Client
