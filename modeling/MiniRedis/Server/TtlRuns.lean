import MiniRedis.Server.Refinement
import MiniRedis.Store.Reaping

namespace MiniRedis.Server

open MiniRedis.Data MiniRedis.Ds MiniRedis.Store MiniRedis.Protocol

/-! The arithmetic of the deadlines over whole runs. -/

variable {strtod : Bytes → Double × Nat} {db db' : Database} {now last : UInt64}
  {key : Bytes} {op : Op} {clock : Clock}

/-- An `EXPIRE` or `PEXPIRE` with a positive argument, and the clock reading of
its `entry_set_ttl`. -/
structure Expiry where
  setTime : UInt64
  unitMs : Int
  n : Int

def Expiry.deadline (expiry : Expiry) : Int :=
  expiry.setTime.toNat +
    min expiry.n (int64Max / expiry.unitMs) * expiry.unitMs

abbrev Expiries := Bytes → Option Expiry

def Request.record (request : Request) (clock : Clock) (expiries : Expiries) :
    Expiries :=
  match request with
  | .on key (.expire unitMs n) =>
      if 0 < n then Function.update expiries key (some ⟨clock.act, unitMs, n⟩)
      else expiries
  | _ => expiries

def DatabaseAction.record (strtod : Bytes → Double × Nat) (expiries : Expiries) :
    DatabaseAction → Expiries
  | .request cmd _ clock => (Request.ofCmd strtod cmd).record clock expiries
  | _ => expiries

/-- Runs from the empty database under a clock that does not go back and stays
below `2 ^ 63`. -/
inductive TtlRun (strtod : Bytes → Double × Nat) :
    Database → Expiries → UInt64 → Prop
  | start {pool : Option Pool} (hpool : pool = none ∨ pool = some {})
      (last : UInt64) : TtlRun strtod { pool := pool } (fun _ => none) last
  | step {db db' : Database} {expiries : Expiries} {last : UInt64}
      {action : DatabaseAction} (run : TtlRun strtod db expiries last)
      (ordered : action.Ordered last)
      (small : ∀ time ∈ action.readings, time.toNat < 2 ^ 63)
      (step : DatabaseStep strtod db action db') :
      TtlRun strtod db' (action.record strtod expiries) (action.time last)

/-- The last call for a key was made in time and is what its deadline is from. -/
structure Expiry.Sets (expiry : Expiry) (last : UInt64) (deadline : Nat) :
    Prop where
  unit : 0 < expiry.unitMs
  positive : 0 < expiry.n
  past : expiry.setTime ≤ last
  exact : (deadline : Int) = expiry.deadline

structure Timed (db : Database) (expiries : Expiries) (last : UInt64) :
    Prop where
  inv : db.Inv
  sets : ∀ key deadline, db.deadline key = some deadline →
    ∃ expiry, expiries key = some expiry ∧ expiry.Sets last deadline

variable {expiries : Expiries}

theorem Expiry.Sets.mono {expiry : Expiry} {deadline : Nat}
    (h : expiry.Sets last deadline) (hle : last ≤ now) :
    expiry.Sets now deadline :=
  ⟨h.unit, h.positive, UInt64.le_trans h.past hle, h.exact⟩

theorem Timed.later (h : Timed db expiries last) (hle : last ≤ now) :
    Timed db expiries now := by
  refine ⟨h.inv, ?_⟩
  intro key deadline hdeadline
  obtain ⟨expiry, hexpiry, hsets⟩ := h.sets key deadline hdeadline
  exact ⟨expiry, hexpiry, hsets.mono hle⟩

theorem Expiry.Sets.le {expiry : Expiry} {deadline : Nat}
    (h : expiry.Sets last deadline) :
    (deadline : Int) ≤ last.toNat + int64Max := by
  obtain ⟨-, hhigh⟩ := clampedTtl_range h.unit h.positive
  rw [clampedTtl_eq] at hhigh
  have hpast := UInt64.le_iff_toNat_le.mp h.past
  have hexact := h.exact
  rw [Expiry.deadline] at hexact
  omega

theorem onZset_deadline {missing : Option (Slot × Value)}
    {act : Entry → Option (Entry × Value)} {slot : Slot} {e : Entry}
    {deadline : Nat} {value : Value}
    (hmissing : ∀ content reply, missing = some (some content, reply) →
      content.2 = none)
    (h : onZset missing act slot = some (some (e, some deadline), value)) :
    ∃ e', slot = some (e', some deadline) := by
  rcases slot with _ | ⟨e', due⟩
  · cases hmissing _ _ h
  · refine ⟨e', ?_⟩
    by_cases htype : e'.type = .zset
    · rw [onZset_zset htype] at h
      obtain ⟨r, -, hr⟩ := Option.bind_eq_some_iff.mp h
      cases hr
      rfl
    · rw [onZset_wrong htype] at h
      cases h
      rfl

theorem expire_deadline {slot : Slot} {e : Entry} {deadline : Nat} {value : Value}
    {unitMs n : Int} (h : (Op.expire unitMs n).act key now slot =
      some (some (e, some deadline), value)) :
    0 < n ∧ deadlineAfter (clampedTtl unitMs n) now = some deadline := by
  rcases slot with _ | ⟨e', due⟩
  · cases h
  · simp only [Op.act] at h
    split at h
    next => cases h
    next hn =>
      injection h with h
      injection h with hslot _
      injection hslot with hslot
      injection hslot with _ hdue
      exact ⟨not_le.mp hn, hdue⟩

/-- A deadline that any other operation leaves was there before. -/
theorem Op.act_deadline {slot : Slot} {e : Entry} {deadline : Nat} {value : Value}
    (hop : ∀ unitMs n, op ≠ .expire unitMs n)
    (h : op.act key now slot = some (some (e, some deadline), value)) :
    ∃ e', slot = some (e', some deadline) := by
  cases op with
  | expire unitMs n => exact absurd rfl (hop unitMs n)
  | get =>
      rcases slot with _ | ⟨e', due⟩
      · cases h
      · cases h
        exact ⟨_, rfl⟩
  | set written =>
      rcases slot with _ | ⟨e', due⟩
      · cases h
      · simp only [Op.act] at h
        split at h
        next =>
          cases h
          exact ⟨_, rfl⟩
        next => cases h
  | del =>
      rcases slot with _ | ⟨e', due⟩
      · cases h
      · cases h
  | ttl inMs =>
      rcases slot with _ | ⟨e', _ | due⟩
      · cases h
      · cases h
      · cases h
        exact ⟨_, rfl⟩
  | persist =>
      rcases slot with _ | ⟨e', _ | due⟩
      · cases h
      · cases h
      · cases h
  | zadd score name =>
      apply onZset_deadline _ h
      intro content reply hmissing
      obtain ⟨_, _, hmissing⟩ := Option.bind_eq_some_iff.mp hmissing
      cases hmissing
      rfl
  | zrem name => exact onZset_deadline (by rintro _ _ ⟨⟩) h
  | zscore name => exact onZset_deadline (by rintro _ _ ⟨⟩) h
  | zquery score name offset limit =>
      exact onZset_deadline (by rintro _ _ ⟨⟩) h

/-- The sum of `entry_set_ttl` is exact while the clock is below `2 ^ 63`. -/
theorem deadlineAfter_exact {unitMs n : Int} {deadline : Nat}
    (hclock : now.toNat < 2 ^ 63) (hunit : 0 < unitMs) (hn : 0 < n)
    (h : deadlineAfter (clampedTtl unitMs n) now = some deadline) :
    (deadline : Int) = Expiry.deadline ⟨now, unitMs, n⟩ := by
  rw [deadlineAfter_eq hunit hn, Option.some.injEq] at h
  rw [← h, Expiry.deadline]
  exact expiryDeadline_exact hclock hunit hn

theorem Request.record_of_ne {request : Request} {other : Bytes}
    (h : ∀ unitMs n, request ≠ .on other (.expire unitMs n)) :
    request.record clock expiries other = expiries other := by
  unfold Request.record
  split
  next key unitMs n =>
    split
    next =>
      rw [Function.update_of_ne]
      rintro rfl
      exact h unitMs n rfl
    next => rfl
  next => rfl

theorem Timed.request {cmd : List Bytes} {out out' : Bytes}
    (h : Timed db expiries last) (hlater : last ≤ clock.lookup)
    (horder : clock.lookup ≤ clock.act) (hsmall : clock.act.toNat < 2 ^ 63)
    (hresult : doRequest strtod cmd db out clock = some (db', out')) :
    Timed db' ((Request.ofCmd strtod cmd).record clock expiries) clock.act := by
  have hnow := h.later (UInt64.le_trans hlater horder)
  have hanswers := doRequest_answers h.inv strtod cmd out clock
  rw [hresult] at hanswers
  generalize Request.ofCmd strtod cmd = request at hanswers
  cases hanswers with
  | reject => exact hnow
  | keys => exact hnow
  | @on key op _ hvalid hacts =>
      obtain ⟨slot, value, haction, hstores, rfl⟩ := hacts.of_some
      refine ⟨hstores.inv, ?_⟩
      intro other deadline hdeadline
      obtain ⟨e, hstored⟩ := Database.deadline_eq_some.mp hdeadline
      by_cases hkey : other = key
      · subst hkey
        rw [hstores.stored_self] at hstored
        rw [hstored] at haction
        by_cases hexpire : ∃ unitMs n, op = .expire unitMs n
        · obtain ⟨unitMs, n, rfl⟩ := hexpire
          obtain ⟨hn, hset⟩ := expire_deadline haction
          refine ⟨⟨clock.act, unitMs, n⟩, ?_, hvalid, hn, UInt64.le_refl _,
            deadlineAfter_exact hsmall hvalid hn hset⟩
          rw [Request.record, if_pos hn, Function.update_self]
        · have hother : ∀ unitMs n, op ≠ .expire unitMs n := fun unitMs n heq =>
            hexpire ⟨unitMs, n, heq⟩
          obtain ⟨e', hslot⟩ := Op.act_deadline hother haction
          have hold := Option.eq_some_of_filter_eq_some hslot
          rw [Request.record_of_ne]
          · exact hnow.sets other deadline
              (Database.deadline_eq_some.mpr ⟨e', hold⟩)
          · rintro unitMs n ⟨⟩
            exact hother unitMs n rfl
      · rw [hstores.stored, Function.update_of_ne hkey] at hstored
        rw [Request.record_of_ne]
        · exact hnow.sets other deadline
            (Database.deadline_eq_some.mpr ⟨e, hstored⟩)
        · rintro unitMs n ⟨⟩
          exact hkey rfl

theorem Timed.keeps (h : Timed db expiries last) (hinv : db'.Inv)
    (hkept : ∀ key, db'.stored key = db.stored key ∨ db'.stored key = none) :
    Timed db' expiries last := by
  refine ⟨hinv, ?_⟩
  intro key deadline hdeadline
  apply h.sets key deadline
  rw [← hdeadline, Database.deadline, Database.deadline]
  rcases hkept key with hsame | hnone
  · rw [hsame]
  · rw [Database.deadline, hnone] at hdeadline
    cases hdeadline

theorem Timed.step {action : DatabaseAction} (h : Timed db expiries last)
    (hordered : action.Ordered last)
    (hsmall : ∀ time ∈ action.readings, time.toNat < 2 ^ 63)
    (hstep : DatabaseStep strtod db action db') :
    Timed db' (action.record strtod expiries) (action.time last) := by
  cases hstep with
  | request cmd out clock result =>
      obtain ⟨hlater, hrest⟩ := List.pairwise_cons.mp hordered
      exact h.request (hlater clock.lookup List.mem_cons_self)
        ((List.pairwise_cons.mp hrest).1 clock.act List.mem_cons_self)
        (hsmall clock.act (List.mem_cons_of_mem _ List.mem_cons_self)) result
  | reap now works _ result =>
      obtain ⟨hinv, hkept⟩ := reapLoop_keeps h.inv result
      exact (h.later hordered.le).keeps hinv fun key =>
        (hkept key).imp_right And.left
  | take result =>
      obtain ⟨hinv, hstored⟩ := workerTake_keeps h.inv result
      exact h.keeps hinv fun key => .inl (congrFun hstored key)
  | finish ent result =>
      obtain ⟨hinv, hstored⟩ := workerFinish_keeps h.inv result
      exact h.keeps hinv fun key => .inl (congrFun hstored key)

theorem TtlRun.timed (h : TtlRun strtod db expiries last) :
    Timed db expiries last := by
  induction h with
  | start hpool last =>
      refine ⟨Database.Inv.empty _ hpool, ?_⟩
      rintro key deadline ⟨⟩
  | step _ ordered small hstep ih => exact ih.step ordered small hstep

/-! The replies. -/

def msLeft (now : UInt64) (deadline : Nat) : Int :=
  max ((deadline : Int) - now.toNat) 0

structure RoundsUp (ms seconds : Int) : Prop where
  covers : ms ≤ seconds * 1000
  least : (seconds - 1) * 1000 < ms

def ExactReply (inMs : Bool) (ms reply : Int) : Prop :=
  if inMs then reply = ms else RoundsUp ms reply

theorem remaining_exact (inMs : Bool) {deadline : Nat}
    (hhigh : (deadline : Int) ≤ now.toNat + int64Max) :
    ExactReply inMs (msLeft now deadline) (remaining inMs now deadline) ∧
      0 ≤ remaining inMs now deadline ∧
      remaining inMs now deadline ≤ int64Max := by
  by_cases hahead : now.toNat < deadline
  · rw [remaining_eq inMs hahead hhigh, msLeft, max_eq_left (by omega)]
    cases inMs with
    | true =>
        simp only [timeLeft, ExactReply, if_true]
        exact ⟨trivial, by omega, by omega⟩
    | false =>
        simp only [timeLeft, ExactReply, Bool.false_eq_true, if_false]
        unfold int64Max at hhigh ⊢
        exact ⟨⟨by omega, by omega⟩, by omega, by omega⟩
  · have hzero : remaining inMs now deadline = 0 := by
      rw [remaining, if_neg hahead]
      cases inMs <;> rfl
    rw [hzero, msLeft, max_eq_right (by omega)]
    cases inMs with
    | true => exact ⟨rfl, le_rfl, by decide⟩
    | false => exact ⟨⟨le_rfl, by decide⟩, le_rfl, by decide⟩

structure TtlExact (strtod : Bytes → Double × Nat) (db : Database)
    (expiries : Expiries) (clock : Clock) : Prop where
  product : ∀ cmd key unitMs n,
    Request.ofCmd strtod cmd = .on key (.expire unitMs n) → 0 < n →
    checkedInt64 (clampedTtl unitMs n) =
      some (min n (int64Max / unitMs) * unitMs)
  sum : ∀ cmd key unitMs n,
    Request.ofCmd strtod cmd = .on key (.expire unitMs n) → 0 < n →
    clock.act.toNat + castUInt64 (clampedTtl unitMs n) < 2 ^ 64
  expire : ∀ cmd key unitMs n out e due,
    Request.ofCmd strtod cmd = .on key (.expire unitMs n) → 0 < n →
    live clock.lookup (db.stored key) = some (e, due) →
    ∃ db' deadline, doRequest strtod cmd db out clock =
        some (db', out ++ (Value.int 1).encode) ∧
      db'.deadline key = some deadline ∧
      (deadline : Int) = Expiry.deadline ⟨clock.act, unitMs, n⟩
  ttl : ∀ cmd key inMs out e deadline,
    Request.ofCmd strtod cmd = .on key (.ttl inMs) →
    live clock.lookup (db.stored key) = some (e, some deadline) →
    ∃ db' reply, doRequest strtod cmd db out clock =
        some (db', out ++ (Value.int reply).encode) ∧
      0 ≤ reply ∧ reply ≤ int64Max ∧
      ExactReply inMs (msLeft clock.act deadline) reply
  fresh : ∀ cmd key n out e deadline,
    Request.ofCmd strtod cmd = .on key (.ttl false) →
    live clock.lookup (db.stored key) = some (e, some deadline) →
    expiries key = some ⟨clock.act, 1000, n⟩ →
    ∃ db', doRequest strtod cmd db out clock =
      some (db', out ++ (Value.int (min n (int64Max / 1000))).encode)

theorem RoundsUp.exact {ms seconds whole : Int} (h : RoundsUp ms seconds)
    (hms : ms = whole * 1000) : seconds = whole := by
  obtain ⟨hcovers, hleast⟩ := h
  omega

theorem Expiry.Sets.seconds {n : Int} {deadline : Nat} {reply : Int}
    (h : Expiry.Sets ⟨now, 1000, n⟩ last deadline)
    (hreply : RoundsUp (msLeft now deadline) reply) :
    reply = min n (int64Max / 1000) := by
  have hexact := h.exact
  have hpositive : 0 < n := h.positive
  have hwhole : 0 < min n (int64Max / 1000) := lt_min hpositive (by decide)
  simp only [Expiry.deadline] at hexact
  apply hreply.exact
  rw [msLeft, max_eq_left (by omega)]
  omega

theorem Timed.sets_of_live {e : Entry} {deadline : Nat} {lookup : UInt64}
    (h : Timed db expiries last)
    (hlive : live lookup (db.stored key) = some (e, some deadline)) :
    ∃ expiry, expiries key = some expiry ∧ expiry.Sets last deadline :=
  h.sets key deadline (Database.deadline_eq_some.mpr
    ⟨e, Option.eq_some_of_filter_eq_some hlive⟩)

theorem doRequest_ttl {cmd : List Bytes} {inMs : Bool} {e : Entry}
    {deadline : Nat} (hinv : db.Inv)
    (hcmd : Request.ofCmd strtod cmd = .on key (.ttl inMs))
    (hlive : live clock.lookup (db.stored key) = some (e, some deadline))
    (out : Bytes) :
    ∃ db', doRequest strtod cmd db out clock = some (db', out ++
      (Value.int (remaining inMs clock.act deadline)).encode) := by
  have hact : Op.act (.ttl inMs) key clock.act
      (live clock.lookup (db.stored key)) = some (some (e, some deadline),
        .int (remaining inMs clock.act deadline)) := by
    rw [hlive]
    rfl
  obtain ⟨db', hresult, -⟩ := doRequest_on strtod hinv hcmd hact out
  exact ⟨db', hresult⟩

theorem doRequest_expire {cmd : List Bytes} {unitMs n : Int} {e : Entry}
    {due : Option Nat} (hinv : db.Inv)
    (hcmd : Request.ofCmd strtod cmd = .on key (.expire unitMs n)) (hn : 0 < n)
    (hlive : live clock.lookup (db.stored key) = some (e, due)) (out : Bytes) :
    ∃ db', doRequest strtod cmd db out clock =
        some (db', out ++ (Value.int 1).encode) ∧
      db'.deadline key = some (expiryDeadline clock.act unitMs n) := by
  have hset : deadlineAfter (clampedTtl unitMs n) clock.act =
      some (expiryDeadline clock.act unitMs n) :=
    deadlineAfter_eq (Request.ofCmd_valid hcmd) hn
  have hact : Op.act (.expire unitMs n) key clock.act
      (live clock.lookup (db.stored key)) =
      some (some (e, deadlineAfter (clampedTtl unitMs n) clock.act), .int 1) := by
    rw [hlive]
    exact if_neg (not_le.mpr hn)
  obtain ⟨db', hresult, hstores⟩ := doRequest_on strtod hinv hcmd hact out
  refine ⟨db', hresult, ?_⟩
  rw [Database.deadline, hstores.stored_self, ← hset]
  rfl

theorem Timed.ttlExact (h : Timed db expiries last)
    (hlater : last ≤ clock.lookup) (horder : clock.lookup ≤ clock.act)
    (hsmall : clock.act.toNat < 2 ^ 63) :
    TtlExact strtod db expiries clock := by
  have hnow := h.later (UInt64.le_trans hlater horder)
  refine ⟨?_, ?_, ?_, ?_, ?_⟩
  · intro cmd key unitMs n hcmd hn
    rw [checkedInt64_clampedTtl (Request.ofCmd_valid hcmd) hn, clampedTtl_eq]
  · intro cmd key unitMs n hcmd hn
    obtain ⟨hlow, hhigh⟩ := clampedTtl_range (Request.ofCmd_valid hcmd) hn
    have hcast := castUInt64_of_nonneg hlow hhigh
    unfold int64Max at hhigh
    omega
  · intro cmd key unitMs n out e due hcmd hn hlive
    obtain ⟨db', hresult, hdeadline⟩ := doRequest_expire h.inv hcmd hn hlive out
    exact ⟨db', _, hresult, hdeadline,
      expiryDeadline_exact hsmall (Request.ofCmd_valid hcmd) hn⟩
  · intro cmd key inMs out e deadline hcmd hlive
    obtain ⟨expiry, -, hset⟩ := hnow.sets_of_live hlive
    obtain ⟨hexact, hlow, hhigh⟩ := remaining_exact inMs hset.le
    obtain ⟨db', hresult⟩ := doRequest_ttl h.inv hcmd hlive out
    exact ⟨db', _, hresult, hlow, hhigh, hexact⟩
  · intro cmd key n out e deadline hcmd hlive hexpiry
    obtain ⟨expiry, hfound, hset⟩ := hnow.sets_of_live hlive
    rw [hexpiry, Option.some.injEq] at hfound
    subst hfound
    obtain ⟨db', hresult⟩ := doRequest_ttl h.inv hcmd hlive out
    obtain ⟨hexact, -, -⟩ := remaining_exact false hset.le
    rw [hset.seconds hexact] at hresult
    exact ⟨db', hresult⟩

/-- In every run the deadlines are the sums that the last calls for their keys
promise, at most the longest expiry ahead, and no later call wraps or answers
anything but the time left. -/
theorem ttl_arithmetic_exact (hrun : TtlRun strtod db expiries last) :
    (∀ key deadline, db.deadline key = some deadline → ∃ expiry,
      expiries key = some expiry ∧ (deadline : Int) = expiry.deadline) ∧
    (∀ item ∈ db.ttl.items, (item.val : Int) ≤ last.toNat + int64Max) ∧
    ∀ clock : Clock, last ≤ clock.lookup → clock.lookup ≤ clock.act →
      clock.act.toNat < 2 ^ 63 → TtlExact strtod db expiries clock := by
  have h := hrun.timed
  refine ⟨?_, ?_, ?_⟩
  · intro key deadline hdeadline
    obtain ⟨expiry, hexpiry, hsets⟩ := h.sets key deadline hdeadline
    exact ⟨expiry, hexpiry, hsets.exact⟩
  · intro item hitem
    obtain ⟨e, hholds⟩ := h.inv.item_holds hitem
    obtain ⟨expiry, -, hsets⟩ := h.sets e.key item.val
      (Database.deadline_eq_some.mpr ⟨e, h.inv.stored_of_holds hholds⟩)
    exact hsets.le
  · intro clock hlater horder hsmall
    exact h.ttlExact hlater horder hsmall

theorem TtlRun.afterRequest (h : TtlRun strtod db expiries last) (clock : Clock)
    (hlater : last ≤ clock.lookup) (horder : clock.lookup ≤ clock.act)
    (hsmall : clock.act.toNat < 2 ^ 63) (cmd : List Bytes)
    (hreturns : (doRequest strtod cmd db [] clock).isSome) :
    TtlRun strtod (Server.afterRequest strtod cmd clock db)
      ((Request.ofCmd strtod cmd).record clock expiries) clock.act := by
  obtain ⟨⟨db', out'⟩, hresult⟩ := Option.isSome_iff_exists.mp hreturns
  rw [Server.afterRequest, hresult]
  have hordered : (DatabaseAction.request cmd [] clock).Ordered last := by
    simp [DatabaseAction.Ordered, DatabaseAction.readings, hlater, horder,
      UInt64.le_trans hlater horder]
  have hlookup := Nat.lt_of_le_of_lt (UInt64.le_iff_toNat_le.mp horder) hsmall
  exact h.step hordered (by simpa [DatabaseAction.readings] using ⟨hlookup, hsmall⟩)
    (.request cmd [] clock hresult)

theorem timedKey_ttlRun : ∃ expiries,
    TtlRun (fun _ => ({}, 0)) timedKey expiries 0 := by
  have hrefl := UInt64.le_refl 0
  have hstart : TtlRun (fun _ => ({}, 0)) {} (fun _ => none) 0 :=
    .start (.inl rfl) 0
  have hset := hstart.afterRequest ⟨0, 0⟩ hrefl hrefl (by decide)
    [ascii "SET", ascii "a", ascii "x"] (by decide +kernel)
  exact ⟨_, hset.afterRequest ⟨0, 0⟩ hrefl hrefl (by decide)
    [ascii "PEXPIRE", ascii "a", ascii "5"] (by decide +kernel)⟩

theorem ttl_arithmetic_exact_timed : ∃ expiries db' reply,
    TtlRun (fun _ => ({}, 0)) timedKey expiries 0 ∧
    doRequest (fun _ => ({}, 0)) [ascii "PTTL", ascii "a"] timedKey [] ⟨3, 3⟩ =
      some (db', [] ++ (Value.int reply).encode) ∧ reply = 2 := by
  obtain ⟨expiries, hrun⟩ := timedKey_ttlRun
  have hexact := (ttl_arithmetic_exact hrun).2.2 ⟨3, 3⟩ (by decide)
    (UInt64.le_refl 3) (by decide)
  obtain ⟨e, hlive⟩ : ∃ e, live 3 (timedKey.stored (ascii "a")) =
      some (e, some 5) := ⟨_, by rfl⟩
  obtain ⟨db', reply, hresult, -, -, hreply⟩ :=
    hexact.ttl [ascii "PTTL", ascii "a"] (ascii "a") true [] e 5 (by rfl) hlive
  refine ⟨expiries, db', reply, hrun, hresult, ?_⟩
  have hms : msLeft 3 5 = 2 := by decide
  exact hreply.trans hms

end MiniRedis.Server
