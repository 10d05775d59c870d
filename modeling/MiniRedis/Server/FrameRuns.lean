import MiniRedis.Server.DatabaseRuns
import MiniRedis.Server.EventLoopSpec

namespace MiniRedis.Server

open MiniRedis.Data MiniRedis.Ds MiniRedis.Store MiniRedis.Protocol

/-! The runs of the database behind a server, whose requests come in frames of
limited size. -/

variable {strtod : Bytes → Double × Nat} {db db' : Database}

/-- A request that was read from a body is answered in an empty reply. -/
def DatabaseAction.Framed : DatabaseAction → Prop
  | .request cmd out _ => out = [] ∧
      ∃ body, body.length ≤ maxMsg ∧ parseReq body [] = some (0, cmd)
  | _ => True

def FrameStep (strtod : Bytes → Double × Nat) (db db' : Database) : Prop :=
  ∃ action, DatabaseStep strtod db action db' ∧ action.Framed

def FrameReachable (strtod : Bytes → Double × Nat) (db : Database) : Prop :=
  ∃ pool, (pool = none ∨ pool = some {}) ∧
    Relation.ReflTransGen (FrameStep strtod) { pool := pool } db

theorem FrameReachable.trans (h : FrameReachable strtod db)
    (hsteps : Relation.ReflTransGen (FrameStep strtod) db db') :
    FrameReachable strtod db' := by
  obtain ⟨pool, hpool, hrun⟩ := h
  exact ⟨pool, hpool, hrun.trans hsteps⟩

theorem FrameReachable.empty : FrameReachable strtod {} :=
  ⟨none, .inl rfl, .refl⟩

/-- A malformed frame is answered without the database. -/
theorem respond_steps {body resp : Bytes} {clock : Clock}
    (hbody : body.length ≤ maxMsg)
    (h : respond strtod body db clock = some (db', resp)) :
    Relation.ReflTransGen (FrameStep strtod) db db' := by
  rcases respond_cases body db clock with ⟨cmd, hparse, heq⟩ | ⟨_, heq⟩
  · rw [heq] at h
    exact .single ⟨_, .request cmd [] clock h, rfl, body, hbody, hparse⟩
  · rw [heq] at h
    cases h
    exact .refl

theorem FrameReachable.databaseReachable (h : FrameReachable strtod db) :
    DatabaseReachable strtod db := by
  obtain ⟨pool, hpool, hrun⟩ := h
  exact ⟨pool, hpool, hrun.lift id fun _ _ ⟨action, hstep, _⟩ => ⟨action, hstep⟩⟩

theorem respond_on (strtod : Bytes → Double × Nat) (clock : Clock)
    {cmd : List Bytes} {key : Bytes} {op : Op} {slot : Slot} {value : Value}
    (h : db.Inv) (hcmd : Encodable cmd)
    (hrequest : Request.ofCmd strtod cmd = .on key op)
    (hact : op.act key clock.act (live clock.lookup (db.stored key)) =
      some (slot, value)) :
    ∃ db' resp, respond strtod (encodeReq cmd) db clock = some (db', resp) ∧
      Stores db db' key slot := by
  obtain ⟨db', hresult, hstores⟩ := doRequest_on strtod h hrequest hact []
  exact ⟨db', _, (respond_encodeReq hcmd).trans hresult, hstores⟩

theorem frames_le {stream body : Bytes} (h : body ∈ (frames stream).1) :
    body.length ≤ maxMsg := by
  induction stream using Splitter.items.induct frameSplitter with
  | case1 stream hsplit =>
      rw [frames_of_none hsplit] at h
      cases h
  | case2 stream first rest hsplit ih =>
      rw [frames_of_some hsplit] at h
      rcases List.mem_cons.mp h with rfl | hlater
      · exact (splitFrame_eq_some.mp hsplit).2
      · exact ih hlater

theorem serve_steps {clocks : Nat → Clock} {bodies : List Bytes} {i : Nat}
    {exchanges : List Exchange}
    (h : serve strtod clocks bodies i db = some (db', exchanges))
    (hbound : ∀ body ∈ bodies, body.length ≤ maxMsg) :
    Relation.ReflTransGen (FrameStep strtod) db db' := by
  induction bodies generalizing i db exchanges with
  | nil =>
      cases h
      exact .refl
  | cons body bodies ih =>
      obtain ⟨⟨next, resp⟩, hrespond, h⟩ := Option.bind_eq_some_iff.mp h
      obtain ⟨⟨last, later⟩, hserve, h⟩ := Option.bind_eq_some_iff.mp h
      cases h
      obtain ⟨hbody, hbodies⟩ := List.forall_mem_cons.mp hbound
      exact (respond_steps hbody hrespond).trans (ih hserve hbodies)

theorem handleRead_steps {c c' : Conn} {input : ReadResult}
    {clocks : Nat → Clock} {exchanges : List Exchange}
    (h : handleRead strtod c db input clocks = some (c', db', exchanges)) :
    Relation.ReflTransGen (FrameStep strtod) db db' := by
  rcases handleRead_eq c db input with ⟨_, close, heq⟩ | heq
  · rw [heq] at h
    cases h
    exact .refl
  · rw [heq] at h
    obtain ⟨⟨last, later⟩, hserve, h⟩ := Option.map_eq_some_iff.mp h
    cases h
    exact serve_steps hserve fun _ => frames_le

end MiniRedis.Server

namespace MiniRedis.EventLoop

open MiniRedis.Data MiniRedis.Store MiniRedis.Server

variable {strtod : Bytes → Double × Nat} {loop loop' : Loop}

theorem readPart_steps {c c' : Conn} {ready : Ready} {db db' : Database}
    {traffic : Traffic}
    (h : readPart strtod ready c db = some (c', db', traffic)) :
    Relation.ReflTransGen (FrameStep strtod) db db' := by
  unfold readPart at h
  split at h
  next =>
    obtain ⟨⟨_, _, exchanges⟩, hread, h⟩ := Option.bind_eq_some_iff.mp h
    cases h
    exact handleRead_steps hread
  next =>
    cases h
    exact .refl

theorem handleReady_steps {s s' : Server} {fd : Nat} {ready : Ready}
    {traffic : Traffic}
    (h : handleReady strtod s fd ready = some (s', traffic)) :
    Relation.ReflTransGen (FrameStep strtod) s.db s'.db := by
  rcases handleReady_cases h with ⟨rfl, _⟩ | ⟨c, c', hhandled⟩
  · exact .refl
  · obtain ⟨between, half, hread, _⟩ := hhandled.parts
    exact readPart_steps hread

theorem LoopStep.frameSteps {action : Action}
    (h : LoopStep strtod loop action loop') :
    Relation.ReflTransGen (FrameStep strtod) loop.server.db loop'.server.db := by
  cases h.move with
  | poll _ input now =>
      cases input with
      | none => exact .refl
      | some input =>
          rw [acceptPart, acceptNew_db]
  | handle result => exact handleReady_steps result
  | timers result =>
      exact .single ⟨_, .reap _ _ le_rfl (processTimers_conn result).1, trivial⟩
  | take result => exact .single ⟨_, .take result, trivial⟩
  | finish ent result => exact .single ⟨_, .finish ent result, trivial⟩

theorem LoopReachable.frameReachable (h : LoopReachable strtod loop) :
    FrameReachable strtod loop.server.db := by
  obtain ⟨timeout, hsteps⟩ := h
  refine ⟨some {}, .inr rfl, ?_⟩
  induction hsteps with
  | refl => exact .refl
  | tail _ hstep ih =>
      obtain ⟨action, hstep⟩ := hstep
      exact ih.trans hstep.frameSteps

theorem LoopReachable.databaseInv (h : LoopReachable strtod loop) :
    loop.server.db.Inv :=
  h.frameReachable.databaseReachable.inv

end MiniRedis.EventLoop
