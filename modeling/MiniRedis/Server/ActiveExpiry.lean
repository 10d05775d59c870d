import MiniRedis.Server.PollTimeout
import MiniRedis.Server.RangeReplies
import MiniRedis.Server.Streams
import MiniRedis.Store.Reaping

namespace MiniRedis.EventLoop

open MiniRedis.Data MiniRedis.Ds MiniRedis.Store MiniRedis.Protocol
open MiniRedis.Server

/-! What the timers do to the keys, and the timeout of `poll` after them. -/

variable {strtod : Bytes → Double × Nat} {s s' : Server} {loop loop' : Loop}
  {before now : UInt64} {db db' : Database} {removed : Finset Bytes}
  {state state' : UInt64 × Loop}

/-- Neither a reaping pass nor the handling of a request. -/
def Action.Quiet : Action → Prop
  | .handle _ _ traffic => traffic.exchanges = []
  | .timers _ => False
  | _ => True

def QuietStep (strtod : Bytes → Double × Nat) (state state' : UInt64 × Loop) :
    Prop :=
  ∃ action, Clocked strtod state action state' ∧ action.Quiet

/-- After a pass at time `now`, and until the next pass or request, `poll` is
not given the time to sleep. -/
def Awake (strtod : Bytes → Double × Nat) (before now : UInt64) (s : Server) :
    Prop :=
  ∀ clock clock' later loop', before ≤ clock → now ≤ clock →
    Relation.ReflTransGen (QuietStep strtod) (clock, ⟨s, none⟩) (clock', loop') →
    clock' ≤ later → nextTimerMs loop'.server later = some 0

/-! The timers are left alone. -/

theorem workerTake_ttl (h : workerTake db = some db') : db'.ttl = db.ttl := by
  unfold workerTake at h
  split at h
  next =>
    cases h
    rfl
  next =>
    cases h
    rfl

theorem workerFinish_ttl {ent : Ptr} (h : workerFinish db ent = some db') :
    db'.ttl = db.ttl := by
  unfold workerFinish at h
  split at h
  next =>
    split at h
    next =>
      obtain ⟨_, _, h⟩ := Option.bind_eq_some_iff.mp h
      obtain ⟨_, _, h⟩ := Option.bind_eq_some_iff.mp h
      cases h
      rfl
    next =>
      cases h
      rfl
  next =>
    cases h
    rfl

theorem LoopStep.ttl_of_quiet {action : Action}
    (h : LoopStep strtod loop action loop') (hquiet : action.Quiet) :
    loop'.server.db.ttl = loop.server.db.ttl := by
  cases h.move with
  | poll _ input _ =>
      cases input with
      | none => rfl
      | some input => exact congrArg Database.ttl (acceptNew_db _ input _)
  | handle result =>
      have hsilent : _ = [] := hquiet
      have hreplay := handleReady_replay result
      rw [hsilent] at hreplay
      exact congrArg Database.ttl (Option.some.inj hreplay).symm
  | timers _ => exact hquiet.elim
  | take result => exact workerTake_ttl result
  | finish ent result => exact workerFinish_ttl result

structure Kept (state state' : UInt64 × Loop) : Prop where
  ttl : state'.2.server.db.ttl = state.2.server.db.ttl
  clock : state.1 ≤ state'.1
  idle : ∃ order, IdleInv state'.1 state'.2.server order

theorem Kept.of_run {order : List Nat}
    (h : Relation.ReflTransGen (QuietStep strtod) state state')
    (hidle : IdleInv state.1 state.2.server order) : Kept state state' := by
  induction h with
  | refl => exact ⟨rfl, UInt64.le_refl _, order, hidle⟩
  | tail _ hstep ih =>
      obtain ⟨order, hinv⟩ := ih.idle
      obtain ⟨action, hclocked, hquiet⟩ := hstep
      exact ⟨(hclocked.step.ttl_of_quiet hquiet).trans ih.ttl,
        UInt64.le_trans ih.clock hclocked.later, hclocked.idleInv hinv⟩

/-! The timeout. -/

theorem nextTimerMs_due {order : List Nat} {root : HeapItem Ptr}
    (hidle : IdleInv before s order)
    (hroot : s.db.ttl.items.head? = some root) (hdue : root.val ≤ now.toNat)
    (hlt : root.val < uint64Max) : nextTimerMs s now = some 0 := by
  rw [nextTimerMs, nextMs, hidle.nextIdleMs_eq, hroot]
  simp only [Option.bind_eq_bind, Option.bind_some]
  generalize ((idleDeadlines s).min?.map (· % 2 ^ 64)).getD uint64Max = idle
  have hle : (if root.val < idle then root.val else idle) ≤ root.val := by
    split <;> omega
  rw [if_neg (hle.trans_lt hlt).ne, if_pos (hle.trans hdue)]

theorem nextTimerMs_last {root : HeapItem Ptr} (hidle : IdleInv before s [])
    (hroot : s.db.ttl.items.head? = some root) (hlast : root.val = uint64Max) :
    nextTimerMs s now = some (-1) := by
  rw [nextTimerMs, nextMs, hidle.nextIdleMs_eq, hidle.idleDeadlines_nil, hroot]
  simp [hlast]

/-! The pass. -/

theorem processTimers_reaps {order : List Nat} (hidle : IdleInv before s order)
    (hinv : s.db.Inv) (now : UInt64) :
    ∃ s' removed kept, processTimers s now = some s' ∧ s'.db.Inv ∧
      Reaps now kMaxWorks s.db s'.db removed ∧ IdleInv before s' kept ∧
      (now.toNat = uint64Max → kept = []) := by
  obtain ⟨reaped, gone, kept, hreap, rfl, hkept, hreaped⟩ :=
    reapIdle_idleInv now hidle (Nat.lt_succ_of_le hidle.length_le)
  have hdb := (reapIdle_conn now _ hreap).1
  obtain ⟨db, removed, hkeys, hafter, hreaps⟩ :=
    reapLoop_reaps now kMaxWorks hinv
  refine ⟨{ reaped with db := db }, removed, kept, ?_, hafter, hreaps,
    hkept.congr rfl rfl, ?_⟩
  · simp [processTimers, hreap, reapKeys, hdb, hkeys]
  · intro hlast
    cases kept with
    | nil => rfl
    | cons fd rest =>
        have hlt := UInt64.lt_iff_toNat_lt.mp (hreaped.alive fd rfl)
        have hrange := (lastActive s fd + s.idleTimeoutMs).toNat_lt
        unfold uint64Max at hlast
        omega

/-- The pass removes due keys, the earliest first and at most 2000 of them, and
touches no other.  Whatever it leaves keeps `poll` from sleeping unless all of it
is due at the last time of the clock, which stands for no timer. -/
theorem active_expiry_iff (hreach : ClockedReachable strtod before loop)
    (now : UInt64) :
    ∃ s' removed, processTimers loop.server now = some s' ∧
      (∀ key, key ∈ loop.server.db.dueKeys now ↔ ∃ deadline,
        loop.server.db.deadline key = some deadline ∧ deadline ≤ now.toNat) ∧
      Reaps now kMaxWorks loop.server.db s'.db removed ∧
      ((kMaxWorks < (loop.server.db.dueKeys now).card →
        Awake strtod before now s') ↔ ReapCovered now loop.server.db) := by
  obtain ⟨order, hidle⟩ := hreach.idleInv
  have hinv := hreach.loopReachable.databaseInv
  obtain ⟨s', removed, kept, htimers, hinv', hreaps, hkept, hlast⟩ :=
    processTimers_reaps hidle hinv now
  refine ⟨s', removed, htimers, fun key => hinv.mem_dueKeys, hreaps, ?_⟩
  constructor
  · intro hawake
    by_contra huncovered
    have hmany := (Classical.not_imp.mp huncovered).1
    obtain ⟨hnow, root, hroot, heq⟩ :=
      hreaps.root_last hinv hinv' hmany huncovered
    rw [hlast hnow] at hkept
    have hsleeps : nextTimerMs s' now = some (-1) :=
      nextTimerMs_last hkept hroot heq
    have hbefore : before ≤ now := by
      rw [UInt64.le_iff_toNat_le, hnow]
      exact Nat.le_of_lt_succ before.toNat_lt
    have hzero := hawake hmany now now now ⟨s', none⟩ hbefore
      (UInt64.le_refl now) .refl (UInt64.le_refl now)
    rw [hsleeps] at hzero
    cases hzero
  · intro hcovered hmany clock clock' later loop' hbefore hnow hrun hlater
    obtain ⟨root, hroot, hdue, hlt⟩ := hreaps.root_lt hinv hinv' hmany hcovered
    have hkeeps := Kept.of_run hrun (hkept.mono hbefore)
    obtain ⟨order', hidle'⟩ := hkeeps.idle
    have hsame : loop'.server.db.ttl = s'.db.ttl := hkeeps.ttl
    rw [← hsame] at hroot
    have hclock : clock ≤ clock' := hkeeps.clock
    have hle := UInt64.le_iff_toNat_le.mp
      (UInt64.le_trans hnow (UInt64.le_trans hclock hlater))
    exact nextTimerMs_due hidle' hroot (hdue.trans hle) hlt

/-! Clients that come, make requests and hang up. -/

theorem reapIdle_alive {order : List Nat} (h : IdleInv before s order)
    (halive : ∀ fd c, s.conn fd = some c →
      now < c.lastActiveMs + s.idleTimeoutMs) (fuel : Nat) :
    reapIdle now (fuel + 1) s = some s := by
  cases order with
  | nil =>
      rw [reapIdle_succ, idleDue, if_pos (h.ring.empty_iff.mpr rfl),
        Option.bind_some]
  | cons fd order =>
      obtain ⟨hempty, hnext, c, hc, -, -⟩ := h.front
      rw [reapIdle_succ, idleDue, hempty, hnext]
      simp only [Bool.false_eq_true, if_false, Option.bind_eq_bind,
        Option.bind_some, hc]
      rw [if_pos (halive fd c hc), Option.bind_some]

theorem processTimers_idle {order : List Nat} (h : IdleInv before s order)
    (halive : ∀ fd c, s.conn fd = some c →
      now < c.lastActiveMs + s.idleTimeoutMs)
    (hroot : ∀ root, s.db.ttl.items.head? = some root → now.toNat < root.val) :
    processTimers s now = some s := by
  have hkeys : reapKeys now s.db = some s.db := by
    rw [reapKeys, kMaxWorks, reapLoop]
    cases hhead : s.db.ttl.items.head? with
    | none => rfl
    | some root => exact if_neg (Nat.not_le.mpr (hroot root hhead))
  rw [processTimers, reapIdle_alive h halive]
  simp [hkeys]

def visitor (now : UInt64) (bodies : List Bytes) : Ready where
  revents := { pollIn := true, pollHup := true }
  now := now
  read := .bytes (bodies.flatMap frame)
  write := .again
  clocks := fun _ => ⟨now, now⟩

theorem visitor_handled {bodies : List Bytes} {exchanges : List Exchange}
    {c : Conn} (hconns : s.conns = [some c]) (hincoming : c.incoming = [])
    (hne : bodies ≠ []) (hbodies : ∀ body ∈ bodies, body.length ≤ maxMsg)
    (hserve : serve strtod (fun _ => ⟨now, now⟩) bodies 0 s.db =
      some (db', exchanges)) :
    ∃ s' traffic,
      handleReady strtod s 0 (visitor now bodies) = some (s', traffic) ∧
      s'.conns = [none] ∧ s'.idleTimeoutMs = s.idleTimeoutMs ∧ s'.db = db' := by
  have hconn : s.conn 0 = some c := by
    rw [Server.conn, hconns]
    rfl
  have hframes : frames (c.incoming ++ bodies.flatMap frame) = (bodies, []) := by
    rw [hincoming, List.nil_append, ← List.append_nil (bodies.flatMap frame)]
    exact frames_flatMap hbodies rfl
  have hchunk : bodies.flatMap frame ≠ [] := by
    obtain ⟨body, rest, rfl⟩ := List.exists_cons_of_ne_nil hne
    apply List.ne_nil_of_length_pos
    rw [List.flatMap_cons, List.length_append, length_frame]
    omega
  obtain ⟨after, hread⟩ : ∃ after, handleRead strtod
      { c with lastActiveMs := now } s.db (.bytes (bodies.flatMap frame))
      (fun _ => ⟨now, now⟩) = some (after, db', exchanges) := by
    rcases handleRead_eq { c with lastActiveMs := now } s.db
      (.bytes (bodies.flatMap frame)) with ⟨hempty, _⟩ | heq
    · exact absurd hempty hchunk
    · simp only [ReadResult.chunk, hframes] at heq
      rw [heq, hserve]
      exact ⟨_, rfl⟩
  refine ⟨Server.resetConn
    { conns := [some after]
      db := db'
      idle := dlistInsertBefore (dlistDetach s.idle (some 0)) none (some 0)
      idleTimeoutMs := s.idleTimeoutMs } 0,
    { received := bodies.flatMap frame, exchanges := exchanges }, ?_, rfl, rfl, rfl⟩
  simp [handleReady, serveReady, visitor, hconn, readPart, hread, writePart,
    Server.setConn, hconns, ReadResult.chunk]

theorem pollArgs_closed (hclosed : s.conns = [] ∨ s.conns = [none]) :
    pollArgs s = [] := by
  rcases hclosed with h | h
  · simp [pollArgs, h]
  · simp [pollArgs, h]

theorem visit_opens (hreach : ClockedReachable strtod now ⟨s, none⟩)
    (hclosed : s.conns = [] ∨ s.conns = [none])
    (hpatient : now < now + s.idleTimeoutMs)
    (hroot : ∀ root, s.db.ttl.items.head? = some root → now.toNat < root.val) :
    ∃ opened, ClockedReachable strtod now ⟨opened, none⟩ ∧
      opened.conns = [some { fd := 0, wantRead := true, lastActiveMs := now }] ∧
      opened.idleTimeoutMs = s.idleTimeoutMs ∧ opened.db = s.db := by
  have hrefl := UInt64.le_refl now
  have hempty := pollArgs_closed hclosed
  have hfresh : s.conn 0 = none := by
    rcases hclosed with h | h
    · simp [Server.conn, h]
    · simp [Server.conn, h]
  have hpolled : List.Forall₂ Polled (pollArgs s) [] := by
    rw [hempty]
    exact .nil
  have haccept := hreach.tail (.poll hpolled (some (.accepted 0))
    (fun fd hfd => by cases hfd; exact hfresh) hrefl)
  rw [hempty, acceptPart] at haccept
  have hdb := acceptNew_db s (.accepted 0) now
  have htimeout := acceptNew_idleTimeoutMs s 0 now
  have hconns : (acceptNew s (.accepted 0) now).conns =
      [some { fd := 0, wantRead := true, lastActiveMs := now }] := by
    rcases hclosed with h | h
    · simp [acceptNew, Server.growConns, Server.setConn, h]
    · simp [acceptNew, Server.growConns, Server.setConn, h]
  obtain ⟨order, hidle⟩ := haccept.idleInv
  refine ⟨_, haccept.tail (.timers (processTimers_idle hidle ?_ ?_) hrefl),
    hconns, htimeout, hdb⟩
  · intro fd c hconn
    have hmem := Server.mem_conns hconn
    rw [hconns, List.mem_singleton] at hmem
    cases hmem
    rw [htimeout]
    exact hpatient
  · rw [hdb]
    exact hroot

/-- A client connects, makes its requests in one read and hangs up. -/
theorem visit {bodies : List Bytes} {exchanges : List Exchange}
    (hreach : ClockedReachable strtod now ⟨s, none⟩)
    (hclosed : s.conns = [] ∨ s.conns = [none])
    (hpatient : now < now + s.idleTimeoutMs)
    (hroot : ∀ root, s.db.ttl.items.head? = some root → now.toNat < root.val)
    (hne : bodies ≠ []) (hbodies : ∀ body ∈ bodies, body.length ≤ maxMsg)
    (hsize : (bodies.flatMap frame).length ≤ kReadSize)
    (hserve : serve strtod (fun _ => ⟨now, now⟩) bodies 0 s.db =
      some (db', exchanges))
    (hroot' : ∀ root, db'.ttl.items.head? = some root → now.toNat < root.val) :
    ∃ s', ClockedReachable strtod now ⟨s', none⟩ ∧ s'.conns = [none] ∧
      s'.idleTimeoutMs = s.idleTimeoutMs ∧ s'.db = db' := by
  have hrefl := UInt64.le_refl now
  obtain ⟨opened, hwaiting, hconns, htimeout, hdb⟩ :=
    visit_opens hreach hclosed hpatient hroot
  have harrived : List.Forall₂ Polled (pollArgs opened) [visitor now bodies] := by
    rw [pollArgs, hconns]
    exact .cons ⟨fun _ => rfl, by rintro ⟨⟩, hsize⟩ .nil
  have hpending := hwaiting.tail
    (.poll harrived none (by rintro _ ⟨⟩) hrefl)
  rw [← hdb] at hserve
  obtain ⟨s', traffic, hresult, hconns', htimeout', hdb'⟩ :=
    visitor_handled hconns rfl hne hbodies hserve
  have hargs : ((pollArgs opened).map PollFd.fd).zip [visitor now bodies] =
      [(0, visitor now bodies)] := by
    rw [pollArgs, hconns]
    rfl
  rw [hargs, acceptPart] at hpending
  have hhandled := hpending.tail (.handle hresult hrefl)
  obtain ⟨order', hidle'⟩ := hhandled.idleInv
  have hdone : processTimers s' now = some s' := by
    apply processTimers_idle hidle'
    · intro fd c hconn
      have hmem := Server.mem_conns hconn
      rw [hconns', List.mem_singleton] at hmem
      cases hmem
    · rw [hdb']
      exact hroot'
  refine ⟨s', hhandled.tail (.timers hdone hrefl), hconns', ?_, hdb'⟩
  rw [htimeout', htimeout]

def lastButOne : UInt64 := 18446744073709551614

def keyNames (n : Nat) : List Bytes := (List.range n).map memberName

structure Stocked (s : Server) (n : Nat) : Prop where
  reach : ClockedReachable (fun _ => ({}, 0)) lastButOne ⟨s, none⟩
  closed : s.conns = [] ∨ s.conns = [none]
  timeout : s.idleTimeoutMs = 1
  due : ∀ key ∈ keyNames n, s.db.deadline key = some uint64Max
  fresh : ∀ key, key ∉ keyNames n → s.db.stored key = none

theorem mem_keyNames_succ {n : Nat} {key : Bytes} :
    key ∈ keyNames (n + 1) ↔ key ∈ keyNames n ∨ key = memberName n := by
  simp [keyNames, List.range_succ]

theorem memberName_fresh {n : Nat} (hn : n < 2 ^ 64) :
    memberName n ∉ keyNames n := by
  have hnodup := memberNames_nodup hn
  rw [List.range_succ, List.map_append, List.map_singleton] at hnodup
  exact fun hin => List.disjoint_of_nodup_append hnodup hin
    (List.mem_singleton.mpr rfl)

theorem root_later {n : Nat} (hinv : db.Inv)
    (hdue : ∀ key ∈ keyNames n, db.deadline key = some uint64Max)
    (hfresh : ∀ key, key ∉ keyNames n → db.stored key = none)
    (root : HeapItem Ptr) (hroot : db.ttl.items.head? = some root) :
    lastButOne.toNat < root.val := by
  obtain ⟨e, hholds⟩ := hinv.root_holds hroot
  have hstored := hinv.stored_of_holds hholds
  have hdeadline : db.deadline e.key = some root.val :=
    Database.deadline_eq_some.mpr ⟨e, hstored⟩
  by_cases hkey : e.key ∈ keyNames n
  · rw [hdue _ hkey, Option.some.injEq] at hdeadline
    rw [← hdeadline]
    decide
  · rw [hfresh _ hkey] at hstored
    cases hstored

theorem Stocked.empty : Stocked { idleTimeoutMs := 1 } 0 where
  reach := ⟨1, lastButOne, .refl⟩
  closed := .inl rfl
  timeout := rfl
  due := by simp [keyNames]
  fresh _ _ := rfl

def setName (key : Bytes) : List Bytes := [ascii "SET", key, []]

def expireName (key : Bytes) : List Bytes := [ascii "PEXPIRE", key, ascii "1"]

theorem ofCmd_setName (key : Bytes) :
    Request.ofCmd strtod (setName key) = .on key (.set []) := rfl

theorem ofCmd_expireName (key : Bytes) :
    Request.ofCmd strtod (expireName key) = .on key (.expire 1 1) := by
  have harg : str2int (ascii "1") = some 1 := by rfl
  have hcommand : Command strtod (toUpper (ascii "PEXPIRE")) [key, ascii "1"] _ :=
    .pexpire key harg
  exact hcommand.ofCmd

theorem serve_timed (hinv : db.Inv) {key : Bytes} (hkey : key.length = 8)
    (hnone : db.stored key = none) :
    ∃ db' exchanges, serve strtod (fun _ => ⟨lastButOne, lastButOne⟩)
        [encodeReq (setName key), encodeReq (expireName key)] 0 db =
        some (db', exchanges) ∧
      Stores db db' key (some (stringEntry key [], some uint64Max)) := by
  have hset : Protocol.Encodable (setName key) := by
    simp [Protocol.Encodable, setName, kMaxArgs, hkey, ascii]
  have hexpire : Protocol.Encodable (expireName key) := by
    simp [Protocol.Encodable, expireName, kMaxArgs, hkey, ascii]
  have hactSet : Op.act (.set []) key lastButOne
      (live lastButOne (db.stored key)) =
      some (some (stringEntry key [], none), .nil) := by
    rw [hnone]
    rfl
  obtain ⟨between, first, hfirst, hstored⟩ := respond_on strtod
    ⟨lastButOne, lastButOne⟩ hinv hset (ofCmd_setName key) hactSet
  have hlast : deadlineAfter (clampedTtl 1 1) lastButOne = some uint64Max := by
    decide
  have hactExpire : Op.act (.expire 1 1) key lastButOne
      (live lastButOne (between.stored key)) =
      some (some (stringEntry key [], some uint64Max), .int 1) := by
    rw [hstored.stored_self, live_none_due, ← hlast]
    rfl
  obtain ⟨db', second, hsecond, htimed⟩ := respond_on strtod
    ⟨lastButOne, lastButOne⟩ hstored.inv hexpire (ofCmd_expireName key)
    hactExpire
  simp only [serve, hfirst, hsecond, Option.bind_eq_bind, Option.bind_some]
  exact ⟨db', _, rfl, hstored.trans htimed⟩

theorem length_setName (key : Bytes) :
    (encodeReq (setName key)).length = 19 + key.length := by
  rw [length_encodeReq]
  simp [setName, ascii]
  omega

theorem length_expireName (key : Bytes) :
    (encodeReq (expireName key)).length = 24 + key.length := by
  rw [length_encodeReq]
  simp [expireName, ascii]
  omega

theorem Stocked.succ {n : Nat} (h : Stocked s n) (hn : n < 2 ^ 64) :
    ∃ s', Stocked s' (n + 1) := by
  have hout := memberName_fresh hn
  have hlength : (memberName n).length = 8 := length_leBytes 8 n
  have hinv := h.reach.loopReachable.databaseInv
  obtain ⟨db', exchanges, hserve, hstores⟩ :=
    serve_timed hinv hlength (h.fresh _ hout)
  have hdue : ∀ key ∈ keyNames (n + 1), db'.deadline key = some uint64Max := by
    intro key hkey
    rcases mem_keyNames_succ.mp hkey with hold | rfl
    · have hne : key ≠ memberName n := fun heq => hout (heq ▸ hold)
      rw [Database.deadline, hstores.stored, Function.update_of_ne hne]
      exact h.due key hold
    · rw [Database.deadline, hstores.stored_self]
      rfl
  have hfresh : ∀ key, key ∉ keyNames (n + 1) → db'.stored key = none := by
    intro key hkey
    rw [mem_keyNames_succ, not_or] at hkey
    rw [hstores.stored, Function.update_of_ne hkey.2]
    exact h.fresh key hkey.1
  have hpatient : lastButOne < lastButOne + s.idleTimeoutMs := by
    rw [h.timeout]
    decide
  have hfirst := length_setName (memberName n)
  have hsecond := length_expireName (memberName n)
  rw [hlength] at hfirst hsecond
  obtain ⟨s', hreach, hclosed, htimeout, hdb⟩ := visit h.reach h.closed hpatient
    (root_later hinv h.due h.fresh) (List.cons_ne_nil _ _)
    (by simp [hfirst, hsecond, maxMsg])
    (by simp [length_frame, hfirst, hsecond, kReadSize]) hserve
    (root_later hstores.inv hdue hfresh)
  refine ⟨s', hreach, .inr hclosed, htimeout.trans h.timeout, ?_, ?_⟩
  · rw [hdb]
    exact hdue
  · rw [hdb]
    exact hfresh

theorem exists_stocked (n : Nat) (hn : n ≤ 2 ^ 64) : ∃ s, Stocked s n := by
  induction n with
  | zero => exact ⟨_, .empty⟩
  | succ n ih =>
      obtain ⟨s, hs⟩ := ih (Nat.le_of_lt hn)
      exact hs.succ hn

theorem Stocked.card_dueKeys {n : Nat} (h : Stocked s n) (hn : n ≤ 2 ^ 64) :
    (s.db.dueKeys 18446744073709551615).card = n := by
  have hkeys : s.db.dueKeys 18446744073709551615 = (keyNames n).toFinset := by
    ext key
    rw [h.reach.loopReachable.databaseInv.mem_dueKeys, List.mem_toFinset]
    by_cases hkey : key ∈ keyNames n
    · rw [h.due key hkey]
      exact iff_of_true ⟨uint64Max, rfl, by decide⟩ hkey
    · have hnone : s.db.deadline key = none := by
        rw [Database.deadline, h.fresh key hkey]
        rfl
      simp [hkey, hnone]
  rw [hkeys, keyNames, List.toFinset_card_of_nodup (memberNames_nodup hn),
    List.length_map, List.length_range]

theorem Stocked.dueKeys_early {n : Nat} (h : Stocked s n) :
    s.db.dueKeys 18446744073709551614 = ∅ :=
  have hinv := h.reach.loopReachable.databaseInv
  hinv.dueKeys_eq_empty (root_later hinv h.due h.fresh)

theorem active_expiry_iff_one : ∃ s s' removed,
    ClockedReachable (fun _ => ({}, 0)) lastButOne ⟨s, none⟩ ∧
      processTimers s 18446744073709551615 = some s' ∧
      Reaps 18446744073709551615 kMaxWorks s.db s'.db removed ∧
      removed.card = 1 := by
  obtain ⟨s, hs⟩ := exists_stocked 1 (by decide)
  obtain ⟨s', removed, htimers, -, hreaps, -⟩ :=
    active_expiry_iff hs.reach 18446744073709551615
  refine ⟨s, s', removed, hs.reach, htimers, hreaps, ?_⟩
  rw [hreaps.count]
  exact (congrArg (min kMaxWorks) (hs.card_dueKeys (by decide))).trans (by decide)

/-- Keys that are due at the last time of the clock, one more than a pass takes:
the last of them stays, and `poll` is to block. -/
theorem active_expiry_sleeps : ∃ s s',
    ClockedReachable (fun _ => ({}, 0)) 18446744073709551615 ⟨s, some []⟩ ∧
      kMaxWorks < (s.db.dueKeys 18446744073709551615).card ∧
      processTimers s 18446744073709551615 = some s' ∧
      (s'.db.dueKeys 18446744073709551615).Nonempty ∧
      nextTimerMs s' 18446744073709551615 = some (-1) := by
  obtain ⟨s, hs⟩ := exists_stocked 2001 (by decide)
  have hpolled : List.Forall₂ Polled (pollArgs s) [] := by
    rw [pollArgs_closed hs.closed]
    exact .nil
  have hreach := hs.reach.tail (.poll hpolled none nofun
    (by decide : lastButOne ≤ 18446744073709551615))
  rw [pollArgs_closed hs.closed, acceptPart] at hreach
  obtain ⟨order, hidle⟩ := hreach.idleInv
  have hinv := hreach.loopReachable.databaseInv
  obtain ⟨s', removed, kept, htimers, hinv', hreaps, hkept, hlast⟩ :=
    processTimers_reaps hidle hinv 18446744073709551615
  have hmany : kMaxWorks < (s.db.dueKeys 18446744073709551615).card := by
    rw [hs.card_dueKeys (by decide)]
    decide
  have huncovered : ¬ ReapCovered 18446744073709551615 s.db := by
    intro hcovered
    have hearly := hcovered hmany
    rw [hs.dueKeys_early] at hearly
    exact absurd hearly (by decide)
  obtain ⟨hnow, root, hroot, heq⟩ :=
    hreaps.root_last hinv hinv' hmany huncovered
  rw [hlast hnow] at hkept
  obtain ⟨e, hholds⟩ := hinv'.root_holds hroot
  have hleft : e.key ∈ s'.db.dueKeys 18446744073709551615 :=
    hinv'.mem_dueKeys.mpr ⟨root.val, Database.deadline_eq_some.mpr
      ⟨e, hinv'.stored_of_holds hholds⟩, by rw [heq]; decide⟩
  exact ⟨s, s', hreach, hmany, htimers, ⟨e.key, hleft⟩,
    nextTimerMs_last hkept hroot heq⟩

end MiniRedis.EventLoop
