import MiniRedis.Server.PollTimeout

namespace MiniRedis.EventLoop

open MiniRedis.Data MiniRedis.Ds MiniRedis.Store MiniRedis.Protocol
open MiniRedis.Server

/-! Which connections the timers close. -/

variable {strtod : Bytes → Double × Nat} {s s' : Server} {loop : Loop}
  {before now : UInt64} {removed kept : List Nat}

def idleTime (now : UInt64) (c : Conn) : Int :=
  (now.toNat : Int) - c.lastActiveMs.toNat

def IdleLaw (now : UInt64) (s s' : Server) : Prop :=
  ∀ fd, s'.conn fd = (s.conn fd).filter fun c =>
    decide (idleTime now c < (s.idleTimeoutMs.toNat : Int))

/-- No deadline is past the range of the clock, or one in the range is still to
come: then the loop stops in front of those that wrap. -/
def IdleCovered (now : UInt64) (s : Server) : Prop :=
  (∀ deadline ∈ idleDeadlines s, deadline < 2 ^ 64) ∨
    ∃ deadline ∈ idleDeadlines s, now.toNat < deadline ∧ deadline < 2 ^ 64

def idleDeadline (s : Server) (fd : Nat) : Nat :=
  (lastActive s fd).toNat + s.idleTimeoutMs.toNat

/-- A sum that wraps counts as past. -/
theorem add_le_iff {active timeout : UInt64} (hpast : active ≤ now) :
    active + timeout ≤ now ↔ active.toNat + timeout.toNat ≤ now.toNat ∨
      2 ^ 64 ≤ active.toNat + timeout.toNat := by
  rw [UInt64.le_iff_toNat_le, UInt64.toNat_add]
  have hle := UInt64.le_iff_toNat_le.mp hpast
  have hactive := active.toNat_lt
  have htimeout := timeout.toNat_lt
  have hnow := now.toNat_lt
  omega

theorem idleTime_lt_iff {fd : Nat} {c : Conn} (h : s.conn fd = some c) :
    idleTime now c < (s.idleTimeoutMs.toNat : Int) ↔
      now.toNat < idleDeadline s fd := by
  rw [idleTime, idleDeadline, lastActive_eq h]
  omega

theorem IdleInv.mem_idleDeadlines {order : List Nat} {deadline : Nat}
    (h : IdleInv now s order) :
    deadline ∈ idleDeadlines s ↔ ∃ fd ∈ order, idleDeadline s fd = deadline := by
  rw [EventLoop.mem_idleDeadlines]
  constructor
  · rintro ⟨fd, c, hconn, rfl⟩
    refine ⟨fd, h.mem_of_conn hconn, ?_⟩
    rw [idleDeadline, lastActive_eq hconn]
  · rintro ⟨fd, hfd, rfl⟩
    obtain ⟨c, hconn⟩ := h.conn_of_mem hfd
    exact ⟨fd, c, hconn, by rw [idleDeadline, lastActive_eq hconn]⟩

theorem IdleInv.deadlines_sorted {order : List Nat} (h : IdleInv now s order) :
    order.Pairwise fun front back =>
      idleDeadline s front ≤ idleDeadline s back := by
  apply h.sorted.imp
  intro front back hle
  exact Nat.add_le_add_right (UInt64.le_iff_toNat_le.mp hle) _

theorem Reaped.law_iff (hreaped : Reaped now s s' removed kept)
    (h : IdleInv before s (removed ++ kept)) :
    IdleLaw now s s' ↔ (∀ fd ∈ removed, idleDeadline s fd ≤ now.toNat) ∧
      ∀ fd ∈ kept, now.toNat < idleDeadline s fd := by
  have hdisjoint := List.disjoint_of_nodup_append h.nodup
  constructor
  · intro hlaw
    constructor
    · intro fd hfd
      obtain ⟨c, hconn⟩ := h.conn_of_mem (List.mem_append_left _ hfd)
      have heq := hlaw fd
      rw [hreaped.conns, if_pos hfd, hconn, eq_comm,
        Option.filter_eq_none_iff] at heq
      have halive := heq c rfl
      rw [decide_eq_true_eq, idleTime_lt_iff hconn] at halive
      exact Nat.not_lt.mp halive
    · intro fd hfd
      obtain ⟨c, hconn⟩ := h.conn_of_mem (List.mem_append_right _ hfd)
      have heq := hlaw fd
      rw [hreaped.conns, if_neg fun hin => hdisjoint hin hfd, hconn, eq_comm,
        Option.filter_eq_some_iff] at heq
      rw [← idleTime_lt_iff hconn]
      exact of_decide_eq_true heq.2
  · rintro ⟨hclosed, hopened⟩ fd
    rw [hreaped.conns]
    by_cases hfd : fd ∈ removed ++ kept
    · obtain ⟨c, hconn⟩ := h.conn_of_mem hfd
      have hiff : idleTime now c < (s.idleTimeoutMs.toNat : Int) ↔
          now.toNat < idleDeadline s fd := idleTime_lt_iff hconn
      rw [hconn]
      by_cases hin : fd ∈ removed
      · have hpast := hclosed fd hin
        rw [if_pos hin, eq_comm, Option.filter_eq_none_iff]
        rintro _ ⟨⟩
        rw [decide_eq_true_eq, hiff]
        exact Nat.not_lt.mpr hpast
      · have halive := hopened fd ((List.mem_append.mp hfd).resolve_left hin)
        rw [if_neg hin, eq_comm, Option.filter_eq_some_iff]
        exact ⟨rfl, decide_eq_true (hiff.mpr halive)⟩
    · have hnone : s.conn fd = none := by
        by_contra hsome
        exact hfd ((h.mem fd).mpr hsome)
      simp [hnone]

theorem Reaped.front_alive {fd : Nat} {rest : List Nat}
    (hreaped : Reaped now s s' removed (fd :: rest))
    (h : IdleInv now s (removed ++ fd :: rest)) :
    now.toNat < idleDeadline s fd ∧ idleDeadline s fd < 2 ^ 64 := by
  have hpast := h.past fd (List.mem_append_right _ List.mem_cons_self)
  have halive := mt (add_le_iff hpast).mpr
    (UInt64.not_le.mpr (hreaped.alive fd rfl))
  rw [not_or] at halive
  exact ⟨Nat.not_le.mp halive.1, Nat.not_le.mp halive.2⟩

/-- Whatever stays is not due, since the first of it is not. -/
theorem Reaped.kept_alive (hreaped : Reaped now s s' removed kept)
    (h : IdleInv now s (removed ++ kept)) :
    ∀ fd ∈ kept, now.toNat < idleDeadline s fd := by
  obtain ⟨-, hsorted, -⟩ := List.pairwise_append.mp h.deadlines_sorted
  cases kept with
  | nil => simp
  | cons front rest =>
      have halive := (hreaped.front_alive h).1
      intro fd hfd
      rcases List.mem_cons.mp hfd with rfl | hlater
      · exact halive
      · exact halive.trans_le (List.rel_of_pairwise_cons hsorted hlater)

theorem Reaped.law_iff_covered (hreaped : Reaped now s s' removed kept)
    (h : IdleInv now s (removed ++ kept)) :
    IdleLaw now s s' ↔ IdleCovered now s := by
  have hdue : ∀ fd ∈ removed, idleDeadline s fd ≤ now.toNat ∨
      2 ^ 64 ≤ idleDeadline s fd := fun fd hfd =>
    (add_le_iff (h.past fd (List.mem_append_left _ hfd))).mp (hreaped.due fd hfd)
  have hacross := (List.pairwise_append.mp h.deadlines_sorted).2.2
  have hnow := now.toNat_lt
  rw [hreaped.law_iff h, and_iff_left (hreaped.kept_alive h), IdleCovered]
  constructor
  · intro hclosed
    cases kept with
    | nil =>
        left
        intro deadline hmem
        obtain ⟨fd, hfd, rfl⟩ := h.mem_idleDeadlines.mp hmem
        rw [List.append_nil] at hfd
        exact (hclosed fd hfd).trans_lt hnow
    | cons front rest =>
        right
        have hmem := h.mem_idleDeadlines.mpr
          ⟨front, List.mem_append_right _ List.mem_cons_self, rfl⟩
        exact ⟨idleDeadline s front, hmem, hreaped.front_alive h⟩
  · rintro (hrange | ⟨deadline, hmem, hcoming, hrange⟩) fd hfd
    · have hlt := hrange _ (h.mem_idleDeadlines.mpr
        ⟨fd, List.mem_append_left _ hfd, rfl⟩)
      exact (hdue fd hfd).resolve_right (Nat.not_le.mpr hlt)
    · obtain ⟨other, hother, rfl⟩ := h.mem_idleDeadlines.mp hmem
      rcases List.mem_append.mp hother with hremoved | hkept
      · have hwrong := hdue other hremoved
        omega
      · have hle := hacross fd hfd other hkept
        exact (hdue fd hfd).resolve_right (by omega)

/-- The pass closes exactly the connections that are idle for the timeout if and
only if every deadline is in the range of the clock, or one in the range is still
to come. -/
theorem idle_reaping_exact_iff (hreach : ClockedReachable strtod before loop)
    (hle : before ≤ now) :
    ∃ s', processTimers loop.server now = some s' ∧
      (IdleLaw now loop.server s' ↔ IdleCovered now loop.server) := by
  obtain ⟨order, hidle⟩ := hreach.idleInv
  obtain ⟨reaped, removed, kept, hreap, rfl, -, hreaped⟩ :=
    reapIdle_idleInv now hidle (Nat.lt_succ_of_le hidle.length_le)
  have hinv := hreach.loopReachable.databaseInv
  rw [← (reapIdle_conn now _ hreap).1] at hinv
  obtain ⟨db, hkeys, -⟩ := reapLoop_spec now kMaxWorks hinv
  refine ⟨{ reaped with db := db }, ?_, ?_⟩
  · simp [processTimers, hreap, reapKeys, hkeys]
  · exact hreaped.law_iff_covered (hidle.mono hle)

theorem idle_reaping_exact_iff_one : ∃ loop s',
    ClockedReachable (fun _ => ({}, 0)) 5 loop ∧
      IdleCovered 30005 loop.server ∧
      processTimers loop.server 30005 = some s' ∧
      IdleLaw 30005 loop.server s' := by
  have hreach : ClockedReachable (fun _ => ({}, 0)) 5
      ⟨acceptPart { idleTimeoutMs := 30000 } (some (.accepted 3)) 5, some []⟩ :=
    ⟨30000, 0, .single (.poll .nil (some (.accepted 3)) (fun _ _ => rfl)
      (by decide))⟩
  have hcovered : IdleCovered 30005
      (acceptPart { idleTimeoutMs := 30000 } (some (.accepted 3)) 5) :=
    .inl (by decide +kernel)
  obtain ⟨s', htimers, hlaw⟩ := idle_reaping_exact_iff hreach
    (by decide : (5 : UInt64) ≤ 30005)
  exact ⟨_, s', hreach, hcovered, htimers, hlaw.mpr hcovered⟩

def patientServer : Server :=
  acceptPart { idleTimeoutMs := 18446744073709551615 } (some (.accepted 0)) 1

theorem patientServer_timers :
    (processTimers patientServer 1).map (fun s => (s.conn 0).isNone) =
      some true := by
  decide +kernel

/-- The client is closed in the millisecond it was accepted in. -/
theorem idle_reaping_early :
    ClockedReachable (fun _ => ({}, 0)) 1 ⟨patientServer, some []⟩ ∧
    ∃ c s', patientServer.conn 0 = some c ∧ idleTime 1 c = 0 ∧
      processTimers patientServer 1 = some s' ∧ s'.conn 0 = none ∧
      ¬ IdleLaw 1 patientServer s' := by
  obtain ⟨s', htimers, hclosed⟩ := Option.map_eq_some_iff.mp patientServer_timers
  have hnone : s'.conn 0 = none := Option.isNone_iff_eq_none.mp hclosed
  refine ⟨⟨18446744073709551615, 0, .single (.poll .nil (some (.accepted 0))
    (fun _ _ => rfl) (by decide))⟩, _, s', rfl, by decide, htimers, hnone, ?_⟩
  intro hlaw
  have hopen := hlaw 0
  rw [hnone] at hopen
  exact absurd hopen (by decide +kernel)

end MiniRedis.EventLoop
