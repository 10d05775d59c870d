import MiniRedis.Server.FrameRuns
import MiniRedis.Server.IdleList

namespace MiniRedis.EventLoop

open MiniRedis.Data MiniRedis.Ds MiniRedis.Store MiniRedis.Protocol
open MiniRedis.Server

/-! The timeout of `poll` against the deadlines of all timers. -/

variable {strtod : Bytes → Double × Nat} {s : Server} {loop : Loop}
  {before now : UInt64} {order : List Nat}

def idleDeadlines (s : Server) : List Nat :=
  s.conns.filterMap fun up =>
    up.map fun c => c.lastActiveMs.toNat + s.idleTimeoutMs.toNat

def keyDeadlines (s : Server) : List Nat :=
  s.db.ttl.items.map HeapItem.val

def earliest (s : Server) : Option Nat :=
  (idleDeadlines s ++ keyDeadlines s).min?

/-- The earliest deadline when the sum for the least active connection is taken
modulo `2 ^ 64`. -/
def wakeup (s : Server) : Option Nat :=
  (((idleDeadlines s).min?.map (· % 2 ^ 64)).toList ++ keyDeadlines s).min?

/-- What a timeout should be: infinite only without a timer, zero only when one
is due, and never past the earliest. -/
structure PollLaw (earliest : Option Nat) (now : UInt64) (timeout : Int) :
    Prop where
  blocks : timeout = -1 ↔ earliest = none
  due : timeout = 0 ↔ ∃ deadline, earliest = some deadline ∧
    deadline ≤ now.toNat
  waits : ∀ deadline, earliest = some deadline → now.toNat < deadline →
    0 < timeout ∧ timeout ≤ (deadline : Int) - now.toNat

def timeoutTo (now : UInt64) : Option Nat → Int
  | none => -1
  | some time =>
      if time < uint64Max then
        if time ≤ now.toNat then 0 else castInt32 (time - now.toNat)
      else
        -1

theorem mem_idleDeadlines {deadline : Nat} :
    deadline ∈ idleDeadlines s ↔ ∃ fd c, s.conn fd = some c ∧
      c.lastActiveMs.toNat + s.idleTimeoutMs.toNat = deadline := by
  simp only [idleDeadlines, List.mem_filterMap, Option.map_eq_some_iff]
  constructor
  · rintro ⟨_, hup, c, rfl, hsum⟩
    obtain ⟨fd, hfd⟩ := List.getElem?_of_mem hup
    exact ⟨fd, c, by rw [Server.conn, hfd, Option.join_some], hsum⟩
  · rintro ⟨fd, c, hconn, hsum⟩
    exact ⟨some c, Server.mem_conns hconn, c, rfl, hsum⟩

theorem IdleInv.idleDeadlines_nil (h : IdleInv now s []) :
    idleDeadlines s = [] := by
  apply List.eq_nil_iff_forall_not_mem.mpr
  intro deadline hmem
  obtain ⟨fd, c, hconn, -⟩ := mem_idleDeadlines.mp hmem
  have hin := h.mem_of_conn hconn
  cases hin

theorem IdleInv.min_idleDeadlines {fd : Nat} {c : Conn}
    (h : IdleInv now s (fd :: order)) (hconn : s.conn fd = some c) :
    (idleDeadlines s).min? =
      some (c.lastActiveMs.toNat + s.idleTimeoutMs.toNat) := by
  rw [List.min?_eq_some_iff]
  refine ⟨mem_idleDeadlines.mpr ⟨fd, c, hconn, rfl⟩, ?_⟩
  intro deadline hmem
  obtain ⟨other, d, hother, rfl⟩ := mem_idleDeadlines.mp hmem
  have hin := h.mem_of_conn hother
  rcases List.mem_cons.mp hin with rfl | hlater
  · rw [hconn] at hother
    cases hother
    exact le_rfl
  · have hle := List.rel_of_pairwise_cons h.sorted hlater
    rw [lastActive_eq hconn, lastActive_eq hother] at hle
    exact Nat.add_le_add_right (UInt64.le_iff_toNat_le.mp hle) _

theorem min_keyDeadlines (h : s.db.Inv) :
    (keyDeadlines s).min? = s.db.ttl.items.head?.map HeapItem.val := by
  cases hhead : s.db.ttl.items.head? with
  | none =>
      rw [keyDeadlines, List.head?_eq_none_iff.mp hhead]
      rfl
  | some item =>
      rw [Option.map_some, List.min?_eq_some_iff]
      refine ⟨List.mem_map_of_mem (List.mem_of_head? hhead), ?_⟩
      intro deadline hmem
      obtain ⟨other, hother, rfl⟩ := List.mem_map.mp hmem
      rw [List.head?_eq_getElem?] at hhead
      exact h.timers.valid.root_least hhead hother

theorem IdleInv.nextIdleMs_eq (h : IdleInv now s order) :
    nextIdleMs s =
      some (((idleDeadlines s).min?.map (· % 2 ^ 64)).getD uint64Max) := by
  cases order with
  | nil =>
      rw [nextIdleMs, if_pos (h.ring.empty_iff.mpr rfl), h.idleDeadlines_nil]
      rfl
  | cons fd order =>
      obtain ⟨hempty, hnext, c, hconn, -, -⟩ := h.front
      rw [nextIdleMs, hempty, h.min_idleDeadlines hconn]
      simp [hnext, hconn]

theorem wakeup_eq (h : s.db.Inv) :
    wakeup s = match (idleDeadlines s).min?.map (· % 2 ^ 64),
        s.db.ttl.items.head?.map HeapItem.val with
      | none, key => key
      | some idle, none => some idle
      | some idle, some key => some (min idle key) := by
  rw [wakeup, ← min_keyDeadlines h]
  cases (idleDeadlines s).min?.map (· % 2 ^ 64) with
  | none => rfl
  | some idle =>
      rw [Option.toList_some, List.singleton_append, List.min?_cons]
      cases (keyDeadlines s).min? with
      | none => rfl
      | some key => rfl

/-- The code takes the smaller of the two times, the largest value if there is
none. -/
theorem nextMs_eq (hidle : IdleInv now s order) (hinv : s.db.Inv) :
    nextMs s = some (min ((wakeup s).getD uint64Max) uint64Max) := by
  have hsmall : ∀ idle, (idleDeadlines s).min?.map (· % 2 ^ 64) = some idle →
      idle ≤ uint64Max := by
    intro idle h
    obtain ⟨sum, -, rfl⟩ := Option.map_eq_some_iff.mp h
    unfold uint64Max
    omega
  rw [nextMs, hidle.nextIdleMs_eq, Option.bind_eq_bind, Option.bind_some,
    wakeup_eq hinv]
  cases hfront : (idleDeadlines s).min?.map (· % 2 ^ 64) with
  | none =>
      cases s.db.ttl.items.head? with
      | none => simp
      | some item => simp [min_def_lt]
  | some idle =>
      have hle := hsmall idle hfront
      cases s.db.ttl.items.head? with
      | none => simp [hle]
      | some item =>
          simp only [Option.map_some, Option.getD_some, ← min_def_lt]
          rw [min_comm idle, min_eq_left (min_le_of_right_le hle)]

theorem nextTimerMs_eq (hidle : IdleInv before s order) (hinv : s.db.Inv)
    (now : UInt64) : nextTimerMs s now = some (timeoutTo now (wakeup s)) := by
  rw [nextTimerMs, nextMs_eq hidle hinv, Option.bind_eq_bind, Option.bind_some]
  cases wakeup s with
  | none => simp [timeoutTo]
  | some time =>
      rw [timeoutTo, Option.getD_some]
      by_cases htime : time < uint64Max
      · rw [min_eq_left htime.le, if_neg htime.ne, if_pos htime,
          apply_ite some]
      · rw [min_eq_right (not_lt.mp htime), if_pos rfl, if_neg htime]

theorem exists_min_le {times : List Nat} {time : Nat} (h : time ∈ times) :
    ∃ least, times.min? = some least ∧ least ≤ time := by
  cases hmin : times.min? with
  | none =>
      rw [List.min?_eq_none_iff.mp hmin] at h
      cases h
  | some least => exact ⟨least, rfl, (List.min?_eq_some_iff.mp hmin).2 time h⟩

theorem wakeup_of_none (h : earliest s = none) : wakeup s = none := by
  obtain ⟨hidle, hkeys⟩ := List.append_eq_nil_iff.mp (List.min?_eq_none_iff.mp h)
  rw [wakeup, hidle, hkeys]
  rfl

/-- The wrapped sum can only be too early. -/
theorem exists_wakeup {deadline : Nat} (h : earliest s = some deadline) :
    ∃ time, wakeup s = some time ∧ time ≤ deadline := by
  rcases List.mem_append.mp (List.min?_mem h) with hidle | hkey
  · obtain ⟨first, hfirst, hle⟩ := exists_min_le hidle
    have hmem : first % 2 ^ 64 ∈
        ((idleDeadlines s).min?.map (· % 2 ^ 64)).toList ++ keyDeadlines s := by
      simp [hfirst]
    obtain ⟨time, htime, hwrapped⟩ := exists_min_le hmem
    exact ⟨time, htime, hwrapped.trans ((Nat.mod_le _ _).trans hle)⟩
  · exact exists_min_le (List.mem_append_right _ hkey)

theorem PollLaw.none (now : UInt64) : PollLaw none now (timeoutTo now none) :=
  ⟨by simp [timeoutTo], by simp [timeoutTo], by simp⟩

theorem pollLaw_some {deadline : Nat} {timeout : Int} :
    PollLaw (some deadline) now timeout ↔
      timeout ≠ -1 ∧ (timeout = 0 ↔ deadline ≤ now.toNat) ∧
        (now.toNat < deadline →
          0 < timeout ∧ timeout ≤ (deadline : Int) - now.toNat) := by
  constructor
  · intro h
    refine ⟨?_, ?_, h.waits deadline rfl⟩
    · intro hblocks
      cases h.blocks.mp hblocks
    · rw [h.due]
      simp
  · rintro ⟨hblocks, hdue, hwaits⟩
    refine ⟨by simp [hblocks], by simp [hdue], ?_⟩
    rintro _ ⟨⟩
    exact hwaits

theorem pollLaw_iff {deadline time : Nat} (hle : time ≤ deadline) :
    PollLaw (some deadline) now (timeoutTo now (some time)) ↔
      time < uint64Max ∧ (deadline ≤ now.toNat ∨ now.toNat < time ∧
        0 < (time - now.toNat) % 2 ^ 32 ∧
        (time - now.toNat) % 2 ^ 32 < 2 ^ 31) := by
  have hcast := castInt32_le (time - now.toNat)
  rw [← castInt32_pos, timeoutTo, pollLaw_some]
  by_cases hmax : time < uint64Max
  · rw [if_pos hmax]
    by_cases hpast : time ≤ now.toNat
    · -- zero, which is right only if the deadline itself has passed
      rw [if_pos hpast]
      omega
    · -- no timer is due, so the cast has to be positive
      rw [if_neg hpast]
      omega
  · rw [if_neg hmax]
    simp [hmax]

/-- The timeout obeys the law exactly without a timer, or if the wrapped time
is not the largest value and either a timer is due or the difference to it is
positive as an `int32_t`. -/
theorem poll_timeout_iff (hreach : ClockedReachable strtod before loop)
    (now : UInt64) :
    ∃ timeout, nextTimerMs loop.server now = some timeout ∧
      (PollLaw (earliest loop.server) now timeout ↔
        earliest loop.server = none ∨
        ∃ deadline time, earliest loop.server = some deadline ∧
          wakeup loop.server = some time ∧ time < uint64Max ∧
          (deadline ≤ now.toNat ∨ now.toNat < time ∧
            0 < (time - now.toNat) % 2 ^ 32 ∧
            (time - now.toNat) % 2 ^ 32 < 2 ^ 31)) := by
  obtain ⟨order, hidle⟩ := hreach.idleInv
  refine ⟨_, nextTimerMs_eq hidle hreach.loopReachable.databaseInv now, ?_⟩
  cases hearliest : earliest loop.server with
  | none =>
      rw [wakeup_of_none hearliest]
      exact iff_of_true (.none now) (.inl rfl)
  | some deadline =>
      obtain ⟨time, htime, hle⟩ := exists_wakeup hearliest
      rw [htime, pollLaw_iff hle]
      simp

theorem poll_timeout_iff_one : ∃ loop,
    ClockedReachable (fun _ => ({}, 0)) 5 loop ∧
      earliest loop.server = some 30005 ∧
      ∃ timeout, nextTimerMs loop.server 5 = some timeout ∧
        PollLaw (some 30005) 5 timeout := by
  have hreach : ClockedReachable (fun _ => ({}, 0)) 5
      ⟨acceptPart { idleTimeoutMs := 30000 } (some (.accepted 3)) 5, some []⟩ :=
    ⟨30000, 0, .single (.poll .nil (some (.accepted 3)) (fun _ _ => rfl)
      (by decide))⟩
  have hearliest : earliest
      (acceptPart { idleTimeoutMs := 30000 } (some (.accepted 3)) 5) =
      some 30005 := by
    decide +kernel
  have hwakeup : wakeup
      (acceptPart { idleTimeoutMs := 30000 } (some (.accepted 3)) 5) =
      some 30005 := by
    decide +kernel
  obtain ⟨timeout, hresult, hlaw⟩ := poll_timeout_iff hreach 5
  rw [hearliest] at hlaw
  exact ⟨_, hreach, hearliest, timeout, hresult,
    hlaw.mpr (.inr ⟨30005, 30005, rfl, hwakeup, by decide, by decide⟩)⟩

def acceptedClient : Server :=
  acceptPart { idleTimeoutMs := 30000 } (some (.accepted 0)) 0

def thirtyDays : Ready where
  revents := { pollIn := true, pollHup := true }
  now := 0
  read := .bytes (frame (encodeReq [ascii "SET", ascii "a", ascii "x"]) ++
    frame (encodeReq [ascii "PEXPIRE", ascii "a", ascii "2592000000"]))
  write := .again
  clocks := fun _ => ⟨0, 0⟩

theorem acceptedClient_timers :
    processTimers acceptedClient 0 = some acceptedClient := by
  rfl

theorem thirtyDays_handled : ∃ s traffic s',
    handleReady (fun _ => ({}, 0)) acceptedClient 0 thirtyDays =
        some (s, traffic) ∧ processTimers s 0 = some s' ∧
      nextTimerMs s' 0 = some (-1702967296) ∧
      earliest s' = some 2592000000 := by
  have heval : (handleReady (fun _ => ({}, 0)) acceptedClient 0
      thirtyDays).bind (fun result => (processTimers result.1 0).map
        fun s' => (nextTimerMs s' 0, earliest s')) =
      some (some (-1702967296), some 2592000000) := by
    decide +kernel
  obtain ⟨⟨s, traffic⟩, hresult, heval⟩ := Option.bind_eq_some_iff.mp heval
  obtain ⟨s', htimers, heval⟩ := Option.map_eq_some_iff.mp heval
  obtain ⟨hnext, hearliest⟩ := Prod.mk.inj heval
  exact ⟨s, traffic, s', hresult, htimers, hnext, hearliest⟩

/-- Thirty days are negative as an `int32_t`. -/
theorem poll_timeout_negative : ∃ loop,
    ClockedReachable (fun _ => ({}, 0)) 0 loop ∧
      earliest loop.server = some 2592000000 ∧
      nextTimerMs loop.server 0 = some (-1702967296) ∧
      ¬ PollLaw (earliest loop.server) 0 (-1702967296) := by
  obtain ⟨s, traffic, s', hresult, htimers, hnext, hearliest⟩ :=
    thirtyDays_handled
  have hpolled : List.Forall₂ Polled (pollArgs acceptedClient) [thirtyDays] :=
    .cons ⟨fun _ => rfl, nofun, by decide⟩ .nil
  have haccept : Relation.ReflTransGen (ClockedStep fun _ => ({}, 0))
      (0, ⟨{ idleTimeoutMs := 30000 }, none⟩) (0, ⟨acceptedClient, none⟩) :=
    .tail (.single (.poll .nil (some (.accepted 0)) (fun _ _ => rfl)
      (UInt64.le_refl 0))) (.timers acceptedClient_timers (UInt64.le_refl 0))
  have hpoll := haccept.tail (.poll hpolled none nofun (UInt64.le_refl 0))
  have hhandle := hpoll.tail (.handle hresult (UInt64.le_refl 0))
  refine ⟨⟨s', none⟩, ⟨30000, 0, ?_⟩, hearliest, hnext, ?_⟩
  · exact hhandle.tail (.timers htimers (UInt64.le_refl 0))
  · intro hlaw
    rw [hearliest] at hlaw
    exact absurd (hlaw.waits _ rfl (by decide)).1 (by decide)

end MiniRedis.EventLoop
