import MiniRedis.Server.History
import MiniRedis.Server.TtlRuns

namespace MiniRedis.EventLoop

open MiniRedis.Data MiniRedis.Ds MiniRedis.Store MiniRedis.Protocol
open MiniRedis.Server

/-! Keys that are due do not pile up, whatever the clients do. -/

variable {strtod : Bytes → Double × Nat} {s s' : Server} {db db' : Database}
  {time now : UInt64} {key : Bytes}

def Event.isPass : Event → Bool
  | .reaped _ => true
  | _ => false

def passes (trace : List Event) : Nat := trace.countP Event.isPass

/-- What is kept, from one pass to the next, if the readings of the clock are
fine. -/
structure Keeps (strtod : Bytes → Double × Nat) (fine : UInt64 → Prop)
    (motive : Nat → Database → Prop) : Prop where
  exchange : ∀ {db db' n} {exchange : Exchange}, motive n db →
    (∀ reading ∈ Exchange.readings exchange, fine reading) →
    respond strtod exchange.body db exchange.clock = some (db', exchange.resp) →
    motive n db'
  reap : ∀ {db db' n} {now : UInt64}, motive n db → fine now →
    reapKeys now db = some db' → motive (n + 1) db'
  take : ∀ {db db' n}, motive n db → workerTake db = some db' → motive n db'
  finish : ∀ {db db' n} {ent : Ptr}, motive n db →
    workerFinish db ent = some db' → motive n db'

namespace Keeps

variable {fine : UInt64 → Prop} {motive : Nat → Database → Prop} {n : Nat}

theorem exchanges (h : Keeps strtod fine motive) {exchanges : List Exchange}
    (hbefore : motive n db)
    (hfine : ∀ reading ∈ exchanges.flatMap Exchange.readings, fine reading)
    (hreplay : exchanges.foldlM (replayExchange strtod) db = some db') :
    motive n db' := by
  induction exchanges generalizing db with
  | nil =>
      cases hreplay
      exact hbefore
  | cons exchange exchanges ih =>
      rw [List.flatMap_cons, List.forall_mem_append] at hfine
      obtain ⟨between, hfirst, hreplay⟩ := Option.bind_eq_some_iff.mp hreplay
      have hstep := h.exchange hbefore hfine.1 (replayExchange_eq_some.mp hfirst)
      exact ih hstep hfine.2 hreplay

theorem event {event : Event} (h : Keeps strtod fine motive)
    (hbefore : motive n db) (hfine : ∀ reading ∈ event.readings, fine reading)
    (hreplay : replay strtod db event = some db') :
    motive (n + passes [event]) db' := by
  cases event with
  | accepted fd =>
      cases hreplay
      exact hbefore
  | handled fd traffic => exact h.exchanges hbefore hfine hreplay
  | reaped now => exact h.reap hbefore (hfine now (.head _)) hreplay
  | taken => exact h.take hbefore hreplay
  | freed ent => exact h.finish hbefore hreplay

theorem run {trace : List Event} (h : Keeps strtod fine motive)
    (hbefore : motive n db)
    (hfine : ∀ reading ∈ trace.flatMap Event.readings, fine reading)
    (hreplay : trace.foldlM (replay strtod) db = some db') :
    motive (n + passes trace) db' := by
  induction trace generalizing db n with
  | nil =>
      cases hreplay
      exact hbefore
  | cons event trace ih =>
      rw [List.flatMap_cons, List.forall_mem_append] at hfine
      obtain ⟨between, hfirst, hreplay⟩ := Option.bind_eq_some_iff.mp hreplay
      have hrest := ih (h.event hbefore hfine.1 hfirst) hfine.2 hreplay
      rw [Nat.add_assoc, passes, passes, ← List.countP_append] at hrest
      exact hrest

end Keeps

theorem respond_inv {body resp : Bytes} {clock : Clock} (hinv : db.Inv)
    (hrespond : respond strtod body db clock = some (db', resp)) : db'.Inv := by
  have hanswers : Answers db [] clock (requestOf strtod body) _ :=
    respond_answers hinv body clock
  rw [hrespond] at hanswers
  generalize requestOf strtod body = request at hanswers
  cases hanswers with
  | reject | keys => exact hinv
  | on _ hacts =>
      obtain ⟨_, _, _, hstores, _⟩ := hacts.of_some
      exact hstores.inv

theorem inv_keeps : Keeps strtod (fun _ => True) fun _ db => db.Inv where
  exchange hinv _ hrespond := respond_inv hinv hrespond
  reap hinv _ hreap := (reapLoop_keeps hinv hreap).1
  take hinv htake := (workerTake_keeps hinv htake).1
  finish hinv hfinish := (workerFinish_keeps hinv hfinish).1

/-! The units of the commands that set a deadline. -/

theorem ofCmd_expire {cmd : List Bytes} {unitMs n : Int}
    (h : Request.ofCmd strtod cmd = .on key (.expire unitMs n)) :
    unitMs = 1 ∨ unitMs = 1000 := by
  obtain ⟨verb, args, -, hcommand⟩ := (ofCmd_eq_iff_command (by simp)).mp h
  generalize toUpper verb = op at hcommand
  cases hcommand with
  | expire => exact .inr rfl
  | pexpire => exact .inl rfl

theorem requestOf_expire {body : Bytes} {unitMs n : Int}
    (h : requestOf strtod body = .on key (.expire unitMs n)) :
    unitMs = 1 ∨ unitMs = 1000 := by
  unfold requestOf at h
  split at h
  next => exact ofCmd_expire h
  next => cases h

theorem Expiry.lt_deadline {expiry : Expiry}
    (hunit : expiry.unitMs = 1 ∨ expiry.unitMs = 1000) (hn : 0 < expiry.n) :
    (expiry.setTime.toNat : Int) < expiry.deadline := by
  have hfactor : 0 < min expiry.n (int64Max / expiry.unitMs) := by
    refine lt_min hn ?_
    rcases hunit with hunit | hunit
    · rw [hunit]
      decide
    · rw [hunit]
      decide
  have hproduct := Int.mul_pos hfactor (by omega : 0 < expiry.unitMs)
  rw [Expiry.deadline]
  omega

/-! The keys that are due by a fixed time. -/

theorem dueKeys_subset (hinv : db.Inv) (hinv' : db'.Inv)
    (hdeadline : ∀ key deadline, db'.deadline key = some deadline →
      deadline ≤ time.toNat → db.deadline key = some deadline) :
    db'.dueKeys time ⊆ db.dueKeys time := by
  intro key hkey
  obtain ⟨deadline, hset, hdue⟩ := hinv'.mem_dueKeys.mp hkey
  exact hinv.mem_dueKeys.mpr ⟨deadline, hdeadline key deadline hset hdue, hdue⟩

/-- A new deadline is later than the clock. -/
theorem respond_dueKeys {body resp : Bytes} {clock : Clock} (hinv : db.Inv)
    (hle : time ≤ clock.act) (hsmall : clock.act.toNat < 2 ^ 63)
    (hrespond : respond strtod body db clock = some (db', resp)) :
    db'.dueKeys time ⊆ db.dueKeys time := by
  have hanswers : Answers db [] clock (requestOf strtod body) _ :=
    respond_answers hinv body clock
  rw [hrespond] at hanswers
  have hunit := fun key unitMs n =>
    @requestOf_expire strtod key body unitMs n
  generalize requestOf strtod body = request at hanswers hunit
  cases hanswers with
  | reject | keys => exact Finset.Subset.refl _
  | @on key op _ hvalid hacts =>
      obtain ⟨slot, value, haction, hstores, rfl⟩ := hacts.of_some
      refine dueKeys_subset hinv hstores.inv ?_
      intro other deadline hdeadline hdue
      obtain ⟨e, hstored⟩ := Database.deadline_eq_some.mp hdeadline
      by_cases hkey : other = key
      · subst hkey
        rw [hstores.stored_self] at hstored
        rw [hstored] at haction
        by_cases hexpire : ∃ unitMs n, op = .expire unitMs n
        · obtain ⟨unitMs, n, rfl⟩ := hexpire
          obtain ⟨hn, hset⟩ := expire_deadline haction
          have hexact := deadlineAfter_exact hsmall hvalid hn hset
          have hlater : (clock.act.toNat : Int) <
              Expiry.deadline ⟨clock.act, unitMs, n⟩ :=
            Expiry.lt_deadline (hunit other unitMs n rfl) hn
          have hnat := UInt64.le_iff_toNat_le.mp hle
          omega
        · obtain ⟨e', hslot⟩ := Op.act_deadline
            (fun unitMs n heq => hexpire ⟨unitMs, n, heq⟩) haction
          exact Database.deadline_eq_some.mpr
            ⟨e', Option.eq_some_of_filter_eq_some hslot⟩
      · rw [hstores.stored, Function.update_of_ne hkey] at hstored
        exact Database.deadline_eq_some.mpr ⟨e, hstored⟩

/-- Of the keys that were due by `time` some are left, less with each pass. -/
structure Backlog (time : UInt64) (start : Finset Bytes) (n : Nat) (db : Database) :
    Prop where
  inv : db.Inv
  sub : db.dueKeys time ⊆ start
  card : (db.dueKeys time).card ≤ start.card - kMaxWorks * n

theorem Backlog.congr {start : Finset Bytes} {n : Nat} (h : Backlog time start n db)
    (hkeeps : db'.Inv ∧ db'.stored = db.stored) : Backlog time start n db' := by
  have hsub : db'.dueKeys time ⊆ db.dueKeys time := by
    refine dueKeys_subset h.inv hkeeps.1 ?_
    intro key deadline hdeadline _
    rw [← hdeadline, Database.deadline, Database.deadline, hkeeps.2]
  exact ⟨hkeeps.1, hsub.trans h.sub, (Finset.card_le_card hsub).trans h.card⟩

theorem Backlog.keeps (start : Finset Bytes) :
    Keeps strtod (fun reading => time ≤ reading ∧ reading.toNat < 2 ^ 63)
      (Backlog time start) where
  exchange {db db' n exchange} h hfine hrespond := by
    obtain ⟨hle, hsmall⟩ := hfine exchange.clock.act (.tail _ (.head _))
    have hsub := respond_dueKeys h.inv hle hsmall hrespond
    exact ⟨respond_inv h.inv hrespond, hsub.trans h.sub,
      (Finset.card_le_card hsub).trans h.card⟩
  reap {db db' n now} h hfine hreap := by
    obtain ⟨_, removed, hresult, hinv, hreaps⟩ := reapLoop_reaps now kMaxWorks h.inv
    rw [reapKeys, hresult] at hreap
    cases hreap
    have hcard := hreaps.card_dueKeys_le h.inv hinv hfine.1
    have hsub : db'.dueKeys time ⊆ db.dueKeys time := by
      rw [hreaps.dueKeys_eq h.inv hinv]
      exact Finset.sdiff_subset
    refine ⟨hinv, hsub.trans h.sub, ?_⟩
    have hbefore := h.card
    rw [Nat.mul_succ]
    omega
  take h htake := h.congr (workerTake_keeps h.inv htake)
  finish h hfinish := h.congr (workerFinish_keeps h.inv hfinish)

/-- Whatever the connections, the timers and the workers do after a state of the
server, and in whatever order, once the clock has reached `time` no further key
becomes due by `time`, and every pass over the timers takes 2000 keys off those
that are, as long as there are any. -/
theorem expiry_keeps_up {early late : List Event} (hrun : ServerRun strtod s early)
    (hrun' : ServerRun strtod s' (early ++ late))
    (hclock : ∀ reading ∈ late.flatMap Event.readings,
      time ≤ reading ∧ reading.toNat < 2 ^ 63) :
    (∀ key, key ∈ s'.db.dueKeys time ↔ ∃ deadline,
      s'.db.deadline key = some deadline ∧ deadline ≤ time.toNat) ∧
    s'.db.dueKeys time ⊆ s.db.dueKeys time ∧
    (s'.db.dueKeys time).card ≤
      (s.db.dueKeys time).card - kMaxWorks * passes late := by
  have hreplay := hrun.served.replays
  have hreplay' := hrun'.served.replays
  rw [List.foldlM_append, hreplay] at hreplay'
  have hinv := inv_keeps.run (n := 0) (Database.Inv.empty _ (.inr rfl)) (by simp)
    hreplay
  have hstart : Backlog time (s.db.dueKeys time) 0 s.db :=
    ⟨hinv, Finset.Subset.refl _, Nat.le_refl _⟩
  have hend := (Backlog.keeps (s.db.dueKeys time)).run hstart hclock hreplay'
  refine ⟨fun key => hend.inv.mem_dueKeys, hend.sub, ?_⟩
  have hcard := hend.card
  rw [Nat.zero_add] at hcard
  exact hcard

def briefKey : Ready where
  revents := { pollIn := true }
  now := 0
  read := .bytes (frame (encodeReq [ascii "SET", ascii "a", ascii "b"]) ++
    frame (encodeReq [ascii "PEXPIRE", ascii "a", ascii "1"]))
  write := .again
  clocks := fun _ => ⟨0, 0⟩

theorem expiry_keeps_up_brief : ∃ s s' early,
    ServerRun (fun _ => ({}, 0)) s early ∧
      ServerRun (fun _ => ({}, 0)) s' (early ++ [.reaped 5]) ∧
      (s.db.dueKeys 5).card = 1 ∧
      (s'.db.dueKeys 5).card ≤ (s.db.dueKeys 5).card - kMaxWorks * 1 := by
  have heval : ((handleReady (fun _ => ({}, 0)) oneClient 0 briefKey).bind
      fun result => (processTimers result.1 5).map fun _ =>
        (result.1.db.dueKeys 5).card) = some 1 := by
    decide +kernel
  obtain ⟨⟨s, traffic⟩, hresult, heval⟩ := Option.bind_eq_some_iff.mp heval
  obtain ⟨s', htimers, hcard⟩ := Option.map_eq_some_iff.mp heval
  have hrun := ((ServerRun.start 30000).accept rfl 0).handle hresult
  have hclock : ∀ reading ∈ [Event.reaped 5].flatMap Event.readings,
      5 ≤ reading ∧ reading.toNat < 2 ^ 63 := by
    intro reading hreading
    cases List.mem_singleton.mp hreading
    decide +kernel
  exact ⟨s, s', _, hrun, hrun.timers htimers, hcard,
    (expiry_keeps_up hrun (hrun.timers htimers) hclock).2.2⟩

end MiniRedis.EventLoop
