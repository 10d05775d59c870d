import MiniRedis.Client.Link

namespace MiniRedis.Client

open MiniRedis.Data MiniRedis.Ds MiniRedis.Store MiniRedis.Protocol
open MiniRedis.Server MiniRedis.EventLoop

/-! The client and the server never wait for each other. -/

variable {strtod : Bytes → Double × Nat} {fd : Nat} {w : World}

/-- The client waits in a call: for room in a socket buffer of this capacity, or
for bytes. -/
def clientBlocked (capacity : Nat) (w : World) : Call → Prop
  | .write _ => capacity ≤ w.toServer.length
  | .read _ => w.toClient = []
  | _ => False

def serverBlocked (capacity : Nat) (w : World) (c : Conn) : Prop :=
  ¬ (c.wantRead = true ∧ w.toServer ≠ []) ∧
    ¬ (c.wantWrite = true ∧ w.toClient.length < capacity)

def Progress (fd : Nat) (request : Call) (w : World) : Prop :=
  ∀ capacity c, 0 < capacity → w.Small → w.phase = .opened →
    w.loop.server.conn fd = some c →
    ¬ (clientBlocked capacity w request ∧ serverBlocked capacity w c)

section Streams

variable {written read out : Bytes} {c : Conn}

theorem Linked.conn (h : Linked strtod fd w) (hphase : w.phase = .opened)
    (hconn : w.loop.server.conn fd = some c) :
    Settled fd c ∧ Streamed c w.session := by
  obtain ⟨_, _, hsession⟩ := h.opened hphase
  refine ⟨h.run.loopReachable.settled.settled fd c hconn, ?_⟩
  rw [hsession]
  exact h.run.serverRun.served.streams fd c hconn

theorem Settled.reads (h : Settled fd c) (hnone : c.outgoing = []) :
    c.wantRead = true := by
  rw [h.modes, h.writes, hnone]
  rfl

theorem Settled.writing (h : Settled fd c) (hsome : c.outgoing ≠ []) :
    c.wantWrite = true := by
  rw [h.writes]
  simpa using hsome

variable {bodies replies : List Bytes} {body : Bytes}

/-- While the client writes a command, the server owes it no reply. -/
theorem Talk.outgoing_eq_nil {rest : Bytes}
    (h : Talk strtod fd written (replies.flatMap frame) out w) (hw : w.Small)
    (hlength : bodies.length = replies.length)
    (hfit : ∀ other ∈ bodies ++ [body], other.length ≤ maxMsg)
    (hsmall : ∀ resp ∈ replies, resp.length ≤ maxMsg)
    (hwritten : written ++ rest = (bodies ++ [body]).flatMap frame)
    (hrest : rest ≠ []) (hstream : Streamed c w.session) :
    c.outgoing = [] := by
  rw [← h.up, List.append_assoc] at hwritten
  obtain ⟨later, hlater, hall⟩ := frames_part hfit hwritten
  have hopen : later ≠ [] := fun hnone =>
    hrest (List.append_eq_nil_iff.mp (hall hnone)).2
  have hcount := congrArg List.length hlater
  rw [← h.bodies, List.length_append, List.length_append, List.length_map,
    List.length_singleton] at hcount
  have hpos := List.length_pos_iff.mpr hopen
  have hanswered := h.answered hw hsmall (List.prefix_refl _)
  have hreplies : replies = w.replies := by
    apply hanswered.eq_of_length_le
    rw [World.replies, List.length_map]
    omega
  have hbytes := congrArg List.length hstream.outgoing
  rw [← World.flatMap_replies, ← hreplies, h.down, List.length_append,
    List.length_append] at hbytes
  exact List.eq_nil_of_length_eq_zero (by omega)

inductive Short : Bytes → Prop
  | header {part : Bytes} (hpart : part.length < 4) : Short part
  | body {total : Nat} {part : Bytes} (htotal : total ≤ maxMsg)
      (hpart : part.length < total) : Short (writeU32 total ++ part)

theorem Short.ne_frame {part resp : Bytes} (h : Short part)
    (hresp : resp.length < 2 ^ 32) : part ≠ frame resp := by
  rintro rfl
  generalize hpart : frame resp = part at h
  cases h with
  | header hshort =>
      rw [← hpart, length_frame] at hshort
      omega
  | @body total rest htotal hshort =>
      have htotal' : total < 256 ^ 4 :=
        Nat.lt_of_le_of_lt htotal (by decide)
      obtain ⟨rfl, rfl⟩ := leBytes_append_inj (by simpa using hresp) htotal' hpart
      omega

/-- While the client reads a reply, the server has read the command whole or has
bytes of it to read, and in the first case it has bytes to send. -/
theorem Talk.owed {part : Bytes}
    (h : Talk strtod fd ((bodies ++ [body]).flatMap frame)
      (replies.flatMap frame ++ part) out w) (hw : w.Small)
    (hlength : bodies.length = replies.length)
    (hfit : ∀ other ∈ bodies ++ [body], other.length ≤ maxMsg)
    (hsmall : ∀ resp ∈ replies, resp.length ≤ maxMsg)
    (hpart : Short part) (hclient : w.toClient = [])
    (hstream : Streamed c w.session) (hserver : w.toServer = []) :
    c.outgoing ≠ [] := by
  intro hnone
  have hup := h.up
  rw [hserver, List.append_nil] at hup
  have hbodies := h.bodies
  rw [hup, frames_flatMap_frame hfit] at hbodies
  have hcount := congrArg List.length hbodies
  rw [List.length_map, List.length_append, List.length_singleton] at hcount
  have hsent := hstream.outgoing
  rw [hnone, List.append_nil, ← World.flatMap_replies, h.down, hclient,
    List.append_nil] at hsent
  obtain ⟨later, hlater, hrest⟩ := flatMap_frame_part
    (fun resp hmem => Nat.lt_of_le_of_lt (hsmall resp hmem) (by decide)) hw hsent
  have hone := congrArg List.length hlater
  rw [World.replies, List.length_map, List.length_append] at hone
  obtain ⟨resp, rfl⟩ := List.length_eq_one_iff.mp
    (show later.length = 1 by omega)
  rw [List.flatMap_singleton] at hrest
  refine hpart.ne_frame (hw resp ?_) hrest
  rw [hlater]
  simp

theorem Talk.progress_write {buffer rest : Bytes}
    (h : Talk strtod fd written (replies.flatMap frame) out w)
    (hlength : bodies.length = replies.length)
    (hfit : ∀ other ∈ bodies ++ [body], other.length ≤ maxMsg)
    (hsmall : ∀ resp ∈ replies, resp.length ≤ maxMsg)
    (hwritten : written ++ rest = (bodies ++ [body]).flatMap frame)
    (hrest : rest ≠ []) : Progress fd (.write buffer) w := by
  rintro capacity c hcapacity hw hphase hconn ⟨hfull, hserver, -⟩
  obtain ⟨hsettled, hstream⟩ := h.conn hphase hconn
  have hnone := h.outgoing_eq_nil hw hlength hfit hsmall hwritten hrest hstream
  refine hserver ⟨Settled.reads hsettled hnone, ?_⟩
  exact List.length_pos_iff.mp (Nat.lt_of_lt_of_le hcapacity hfull)

theorem Talk.progress_read {part : Bytes} {count : Nat}
    (h : Talk strtod fd ((bodies ++ [body]).flatMap frame)
      (replies.flatMap frame ++ part) out w)
    (hlength : bodies.length = replies.length)
    (hfit : ∀ other ∈ bodies ++ [body], other.length ≤ maxMsg)
    (hsmall : ∀ resp ∈ replies, resp.length ≤ maxMsg)
    (hpart : Short part) : Progress fd (.read count) w := by
  rintro capacity c hcapacity hw hphase hconn ⟨hclient, hreads, hwrites⟩
  have hempty : w.toClient = [] := hclient
  obtain ⟨hsettled, hstream⟩ := h.conn hphase hconn
  have hnone : c.outgoing = [] := by
    by_contra hsome
    refine hwrites ⟨Settled.writing hsettled hsome, ?_⟩
    rw [hempty]
    exact hcapacity
  have hserver : w.toServer = [] := by
    by_contra hsome
    exact hreads ⟨Settled.reads hsettled hnone, hsome⟩
  exact h.owed hw hlength hfit hsmall hpart hempty hstream hserver hnone

end Streams

theorem Progress.of_free {request : Call}
    (h : ∀ capacity, ¬ clientBlocked capacity w request) :
    Progress fd request w :=
  fun capacity _ _ _ _ _ hblocked => h capacity hblocked.1

end MiniRedis.Client
