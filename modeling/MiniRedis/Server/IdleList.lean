import MiniRedis.Server.EventLoopSpec
import Mathlib.Data.List.Permutation

namespace MiniRedis.EventLoop

open MiniRedis.Data MiniRedis.Ds MiniRedis.Store MiniRedis.Protocol
open MiniRedis.Server

/-! The list of connections in the order of their last activity. -/

variable {strtod : Bytes → Double × Nat} {s s' : Server} {fd : Nat}
  {now now' : UInt64} {order first second : List Nat} {c c' : Conn}

def lastActive (s : Server) (fd : Nat) : UInt64 :=
  ((s.conn fd).map Conn.lastActiveMs).getD 0

theorem lastActive_eq (h : s.conn fd = some c) :
    lastActive s fd = c.lastActiveMs := by
  rw [lastActive, h]
  rfl

/-- The connections are linked in `order`, the least active in front, and none
was active after `now`. -/
structure IdleInv (now : UInt64) (s : Server) (order : List Nat) : Prop where
  ring : s.idle.Ring none (order.map some)
  mem : ∀ fd, fd ∈ order ↔ s.conn fd ≠ none
  own : ∀ fd c, s.conn fd = some c → c.fd = fd
  sorted : order.Pairwise fun front back =>
    lastActive s front ≤ lastActive s back
  past : ∀ fd ∈ order, lastActive s fd ≤ now

namespace IdleInv

theorem nodup (h : IdleInv now s order) : order.Nodup :=
  (List.nodup_cons.mp h.ring.nodup).2.of_map some

theorem mem_of_conn (h : IdleInv now s order) (hconn : s.conn fd = some c) :
    fd ∈ order := by
  rw [h.mem, hconn]
  exact Option.some_ne_none c

theorem conn_of_mem (h : IdleInv now s order) (hfd : fd ∈ order) :
    ∃ c, s.conn fd = some c :=
  Option.ne_none_iff_exists'.mp ((h.mem fd).mp hfd)

theorem mono (h : IdleInv now s order) (hle : now ≤ now') :
    IdleInv now' s order :=
  ⟨h.ring, h.mem, h.own, h.sorted, fun fd hfd =>
    UInt64.le_trans (h.past fd hfd) hle⟩

theorem congr (h : IdleInv now s order) (hidle : s'.idle = s.idle)
    (hconn : s'.conn = s.conn) : IdleInv now s' order := by
  have hactive : lastActive s' = lastActive s := by
    funext fd
    rw [lastActive, hconn, lastActive]
  refine ⟨hidle ▸ h.ring, ?_, ?_, ?_, ?_⟩
  · rw [hconn]
    exact h.mem
  · rw [hconn]
    exact h.own
  · rw [hactive]
    exact h.sorted
  · rw [hactive]
    exact h.past

theorem empty (now timeout : UInt64) :
    IdleInv now { idleTimeoutMs := timeout } [] :=
  ⟨.init none, by simp [Server.conn], by simp [Server.conn], .nil, by simp⟩

theorem lastActive_of_ne {fd other : Nat} {new : Option Conn}
    (hconn : s'.conn = Function.update s.conn fd new) (hne : other ≠ fd) :
    lastActive s' other = lastActive s other := by
  rw [lastActive, hconn, Function.update_of_ne hne, lastActive]

theorem append (h : IdleInv now s order) (hnew : s.conn fd = none)
    (hring : s'.idle.Ring none ((order ++ [fd]).map some))
    (hconn : s'.conn = Function.update s.conn fd (some c)) (hown : c.fd = fd)
    (hle : now ≤ c.lastActiveMs) :
    IdleInv c.lastActiveMs s' (order ++ [fd]) := by
  have hout : fd ∉ order := fun hin => (h.mem fd).mp hin hnew
  have hold : ∀ other ∈ order, lastActive s' other = lastActive s other := by
    intro other hother
    apply lastActive_of_ne hconn
    rintro rfl
    exact hout hother
  have hself : lastActive s' fd = c.lastActiveMs :=
    lastActive_eq (by rw [hconn, Function.update_self])
  refine ⟨hring, ?_, ?_, ?_, ?_⟩
  · intro other
    rw [hconn, List.mem_append, List.mem_singleton, h.mem other,
      Function.update_apply]
    split
    next heq => simp [heq]
    next hne => simp [hne]
  · intro other d hd
    rcases Server.conn_of_update hconn hd with ⟨rfl, hsome⟩ | ⟨_, hkept⟩
    · cases hsome
      exact hown
    · exact h.own other d hkept
  · apply List.pairwise_append.mpr
    refine ⟨?_, List.pairwise_singleton _ _, ?_⟩
    · apply h.sorted.imp_of_mem
      intro front back hfront hback hfb
      rw [hold front hfront, hold back hback]
      exact hfb
    · intro front hfront back hback
      rw [List.mem_singleton.mp hback, hself, hold front hfront]
      exact UInt64.le_trans (h.past front hfront) hle
  · intro other hother
    rcases List.mem_append.mp hother with hin | hin
    · rw [hold other hin]
      exact UInt64.le_trans (h.past other hin) hle
    · rw [List.mem_singleton.mp hin, hself]
      exact UInt64.le_refl _

theorem accept (h : IdleInv now s order) (hfresh : s.conn fd = none)
    (hle : now ≤ now') :
    IdleInv now' (acceptNew s (.accepted fd) now') (order ++ [fd]) := by
  have hout : some fd ∉ none :: order.map some := by
    have hfd : fd ∉ order := fun hin => (h.mem fd).mp hin hfresh
    simpa using hfd
  have hidle : (acceptNew s (.accepted fd) now').idle =
      dlistInsertBefore (dlistInit s.idle (some fd)) none (some fd) := by
    simp only [acceptNew, Server.setConn, Server.growConns]
    split <;> rfl
  have hring := (h.ring.init_other hout).insertBefore hout
  exact h.append hfresh (by rw [hidle, List.map_append]; exact hring)
    (acceptNew_conn s fd now') rfl hle

theorem reset (h : IdleInv now s (first ++ fd :: second)) :
    IdleInv now (s.resetConn fd) (first ++ second) := by
  have hconn := Server.conn_resetConn s fd
  have hperm : (first ++ fd :: second).Perm (fd :: (first ++ second)) :=
    List.perm_middle
  have hout : fd ∉ first ++ second :=
    (List.nodup_cons.mp (hperm.nodup_iff.mp h.nodup)).1
  have hold : ∀ other ∈ first ++ second,
      lastActive (s.resetConn fd) other = lastActive s other := by
    intro other hother
    apply lastActive_of_ne hconn
    rintro rfl
    exact hout hother
  have hidle : (s.resetConn fd).idle = dlistDetach s.idle (some fd) := by
    obtain ⟨c, hc⟩ := h.conn_of_mem
      (List.mem_append_right first List.mem_cons_self)
    rw [Server.resetConn, hc]
  have hring := h.ring
  rw [List.map_append, List.map_cons] at hring
  refine ⟨?_, ?_, ?_, ?_, ?_⟩
  · rw [hidle, List.map_append]
    exact hring.detach
  · intro other
    rw [hconn, Function.update_apply]
    have hmem := h.mem other
    rw [hperm.mem_iff, List.mem_cons] at hmem
    split
    next heq => simpa [heq] using hout
    next hne =>
      rw [← hmem]
      exact ⟨.inr, fun hin => hin.resolve_left hne⟩
  · intro other d hd
    rcases Server.conn_of_update hconn hd with ⟨_, hnone⟩ | ⟨_, hkept⟩
    · cases hnone
    · exact h.own other d hkept
  · have hsub : (first ++ second).Sublist (first ++ fd :: second) :=
      (List.sublist_cons_self fd second).append_left first
    apply (h.sorted.sublist hsub).imp_of_mem
    intro front back hfront hback hfb
    rw [hold front hfront, hold back hback]
    exact hfb
  · intro other hother
    rw [hold other hother]
    exact h.past other (hperm.mem_iff.mpr (List.mem_cons_of_mem _ hother))

end IdleInv

/-! Handling a connection. -/

theorem readPart_keeps {ready : Ready} {db db' : Database} {traffic : Traffic}
    (h : readPart strtod ready c db = some (c', db', traffic)) :
    c'.fd = c.fd ∧ c'.lastActiveMs = c.lastActiveMs := by
  unfold readPart at h
  split at h
  next =>
    obtain ⟨⟨between, mid, exchanges⟩, hread, hdone⟩ :=
      Option.bind_eq_some_iff.mp h
    cases hdone
    rcases handleRead_eq c db ready.read with ⟨_, close, heq⟩ | heq
    · rw [heq] at hread
      cases hread
      exact ⟨rfl, rfl⟩
    · rw [heq, Option.map_eq_some_iff] at hread
      obtain ⟨_, _, hread⟩ := hread
      cases hread
      exact ⟨rfl, rfl⟩
  next =>
    cases h
    exact ⟨rfl, rfl⟩

theorem writePart_keeps {ready : Ready} {traffic traffic' : Traffic}
    (h : writePart ready c traffic = some (c', traffic')) :
    c'.fd = c.fd ∧ c'.lastActiveMs = c.lastActiveMs := by
  unfold writePart at h
  split at h
  next =>
    obtain ⟨⟨between, sent⟩, hwrite, hdone⟩ := Option.bind_eq_some_iff.mp h
    cases hdone
    rcases handleWrite_cases hwrite with ⟨_, close, _, rfl⟩ | ⟨rest, _, _, rfl⟩
    · exact ⟨rfl, rfl⟩
    · exact ⟨rfl, rfl⟩
  next =>
    cases h
    exact ⟨rfl, rfl⟩

structure Refreshed (s s' : Server) (fd : Nat) (now : UInt64) (c c' : Conn) :
    Prop where
  found : s.conn fd = some c
  conns : s'.conn = Function.update s.conn fd (some c')
  idle : s'.idle =
    dlistInsertBefore (dlistDetach s.idle (some fd)) none (some fd)
  own : c'.fd = c.fd
  active : c'.lastActiveMs = now

theorem handleReady_refreshed {ready : Ready} {traffic : Traffic}
    (h : handleReady strtod s fd ready = some (s', traffic)) :
    s' = s ∨ ∃ between c c', Refreshed s between fd ready.now c c' ∧
      (s' = between ∨ s' = between.resetConn fd) := by
  obtain ⟨between, closes, hresult, rfl⟩ := handleReady_eq_some.mp h
  rcases serveReady_cases hresult with ⟨rfl, rfl, rfl⟩ | ⟨c, c', hserved⟩
  · exact .inl rfl
  · obtain ⟨mid, half, hread, hwrite⟩ := hserved.parts
    obtain ⟨hfd, hactive⟩ := readPart_keeps hread
    obtain ⟨hfd', hactive'⟩ := writePart_keeps hwrite
    have hidle := congrArg Server.idle hserved.server
    refine .inr ⟨between, c, c', ⟨hserved.found, hserved.conns, hidle,
      hfd'.trans hfd, hactive'.trans hactive⟩, ?_⟩
    cases closes with
    | false => exact .inl rfl
    | true => exact .inr rfl

/-- Moving to the back is leaving and coming again. -/
theorem Refreshed.idleInv (hrefreshed : Refreshed s s' fd now' c c')
    (h : IdleInv now s (first ++ fd :: second)) (hle : now ≤ now') :
    IdleInv now' s' (first ++ second ++ [fd]) := by
  have hleft := h.reset
  have hconn : (s.resetConn fd).conn = Function.update s.conn fd none :=
    Server.conn_resetConn s fd
  have hgone : (s.resetConn fd).conn fd = none := by
    rw [hconn, Function.update_self]
  have hidle : (s.resetConn fd).idle = dlistDetach s.idle (some fd) := by
    rw [Server.resetConn, hrefreshed.found]
  have hout : some fd ∉ none :: (first ++ second).map some := by
    have hfd : fd ∉ first ++ second := fun hin => (hleft.mem fd).mp hin hgone
    simpa using hfd
  have hring : s'.idle.Ring none ((first ++ second ++ [fd]).map some) := by
    rw [hrefreshed.idle, ← hidle, List.map_append]
    exact hleft.ring.insertBefore hout
  have hconns : s'.conn = Function.update (s.resetConn fd).conn fd (some c') := by
    rw [hconn, Function.update_idem, hrefreshed.conns]
  have hown : c'.fd = fd :=
    hrefreshed.own.trans (h.own fd c hrefreshed.found)
  have happend := hleft.append hgone hring hconns hown
  rw [hrefreshed.active] at happend
  exact happend hle

theorem handleReady_idleInv {ready : Ready} {traffic : Traffic}
    (hresult : handleReady strtod s fd ready = some (s', traffic))
    (h : IdleInv now s order) (hle : now ≤ ready.now) :
    ∃ order', IdleInv ready.now s' order' := by
  rcases handleReady_refreshed hresult with
    rfl | ⟨between, c, c', hrefreshed, hend⟩
  · exact ⟨order, h.mono hle⟩
  · obtain ⟨first, second, rfl⟩ :=
      List.append_of_mem (h.mem_of_conn hrefreshed.found)
    have hbetween := hrefreshed.idleInv h hle
    rcases hend with rfl | rfl
    · exact ⟨_, hbetween⟩
    · exact ⟨first ++ second ++ [], hbetween.reset⟩

/-! The reaping loop. -/

theorem IdleInv.length_le (h : IdleInv now s order) :
    order.length ≤ s.conns.length := by
  have hsub : order ⊆ List.range s.conns.length := by
    intro fd hfd
    obtain ⟨c, hc⟩ := h.conn_of_mem hfd
    exact List.mem_range.mpr (Server.lt_of_conn hc)
  have hle := (List.subperm_of_subset h.nodup hsub).length_le
  rwa [List.length_range] at hle

/-- The front of the list is the connection that an iteration looks at, and
resetting it leaves the rest. -/
theorem IdleInv.front (h : IdleInv now s (fd :: order)) :
    dlistEmpty s.idle none = false ∧ s.idle.next none = some fd ∧
      ∃ c, s.conn fd = some c ∧ c.fd = fd ∧
        IdleInv now (s.resetConn c.fd) order := by
  have hring : s.idle.Ring none (some fd :: order.map some) := h.ring
  have hempty : ¬ dlistEmpty s.idle none = true := by
    rw [hring.empty_iff]
    simp
  obtain ⟨c, hc⟩ := h.conn_of_mem List.mem_cons_self
  have hown := h.own fd c hc
  have hfirst : IdleInv now s ([] ++ fd :: order) := h
  refine ⟨by simpa using hempty, hring.next_eq, c, hc, hown, ?_⟩
  rw [hown]
  exact hfirst.reset

structure Reaped (clock : UInt64) (s s' : Server) (removed kept : List Nat) :
    Prop where
  due : ∀ fd ∈ removed, lastActive s fd + s.idleTimeoutMs ≤ clock
  alive : ∀ fd, kept.head? = some fd →
    clock < lastActive s fd + s.idleTimeoutMs
  conns : ∀ fd, s'.conn fd = if fd ∈ removed then none else s.conn fd

theorem Server.resetConn_idleTimeoutMs (s : Server) (fd : Nat) :
    (s.resetConn fd).idleTimeoutMs = s.idleTimeoutMs := by
  unfold Server.resetConn
  split <;> rfl

theorem Reaped.cons {clock : UInt64} {removed kept : List Nat}
    (h : Reaped clock (s.resetConn fd) s' removed kept)
    (hdue : lastActive s fd + s.idleTimeoutMs ≤ clock)
    (hout : fd ∉ removed ++ kept) : Reaped clock s s' (fd :: removed) kept := by
  have hconn := Server.conn_resetConn s fd
  have hold : ∀ other ∈ removed ++ kept,
      lastActive (s.resetConn fd) other + (s.resetConn fd).idleTimeoutMs =
        lastActive s other + s.idleTimeoutMs := by
    intro other hother
    rw [Server.resetConn_idleTimeoutMs,
      IdleInv.lastActive_of_ne hconn fun heq => hout (heq ▸ hother)]
  refine ⟨?_, ?_, ?_⟩
  · intro other hother
    rcases List.mem_cons.mp hother with rfl | hin
    · exact hdue
    · rw [← hold other (List.mem_append_left _ hin)]
      exact h.due other hin
  · intro other hhead
    rw [← hold other (List.mem_append_right _ (List.mem_of_head? hhead))]
    exact h.alive other hhead
  · intro other
    rw [h.conns other, hconn, Function.update_apply]
    by_cases heq : other = fd
    · simp [heq]
    · simp [heq]

theorem reapIdle_idleInv (clock : UInt64) {fuel : Nat}
    (h : IdleInv now s order) (hfuel : order.length < fuel) :
    ∃ s' removed kept, reapIdle clock fuel s = some s' ∧
      order = removed ++ kept ∧ IdleInv now s' kept ∧
      Reaped clock s s' removed kept := by
  induction fuel generalizing s order with
  | zero => cases hfuel
  | succ fuel ih =>
      cases order with
      | nil =>
          have hempty : dlistEmpty s.idle none = true := h.ring.empty_iff.mpr rfl
          have hdone : reapIdle clock (fuel + 1) s = some s := by
            simp [reapIdle_succ, idleDue, hempty]
          exact ⟨s, [], [], hdone, rfl, h, ⟨by simp, by simp, by simp⟩⟩
      | cons fd order =>
          have hout := (List.nodup_cons.mp h.nodup).1
          obtain ⟨hempty, hnext, c, hc, hown, hrest⟩ := h.front
          rw [reapIdle_succ, idleDue, hempty, hnext]
          simp only [Bool.false_eq_true, if_false, Option.bind_eq_bind,
            Option.bind_some, hc, ← lastActive_eq hc]
          split
          next halive =>
            refine ⟨s, [], fd :: order, rfl, rfl, h, by simp, ?_, by simp⟩
            rintro _ ⟨⟩
            exact halive
          next halive =>
            obtain ⟨s', removed, kept, hreap, rfl, hkept, hreaped⟩ :=
              ih hrest (Nat.lt_of_succ_lt_succ hfuel)
            rw [hown] at hreaped
            exact ⟨s', fd :: removed, kept, hreap, rfl, hkept,
              hreaped.cons (UInt64.not_lt.mp halive) hout⟩

/-! Runs with a clock that never goes back. -/

structure Clocked (strtod : Bytes → Double × Nat) (state : UInt64 × Loop)
    (action : Action) (state' : UInt64 × Loop) : Prop where
  step : LoopStep strtod state.2 action state'.2
  time : state'.1 = action.time state.1
  later : state.1 ≤ state'.1

def ClockedStep (strtod : Bytes → Double × Nat) (state state' : UInt64 × Loop) :
    Prop :=
  ∃ action, Clocked strtod state action state'

namespace ClockedStep

variable {before : UInt64} {ready : Ready} {traffic : Traffic}

theorem poll {results : List Ready}
    (polled : List.Forall₂ Polled (pollArgs s) results)
    (input : Option AcceptResult)
    (fresh : ∀ fd, input.bind AcceptResult.opened = some fd → s.conn fd = none)
    (hclock : before ≤ now) :
    ClockedStep strtod (before, ⟨s, none⟩)
      (now, ⟨acceptPart s input now,
        some (((pollArgs s).map PollFd.fd).zip results)⟩) :=
  ⟨_, .poll polled input now fresh, rfl, hclock⟩

theorem handle {rest : List (Nat × Ready)}
    (result : handleReady strtod s fd ready = some (s', traffic))
    (hclock : before ≤ ready.now) :
    ClockedStep strtod (before, ⟨s, some ((fd, ready) :: rest)⟩)
      (ready.now, ⟨s', some rest⟩) :=
  ⟨_, .handle result, rfl, hclock⟩

theorem timers (result : processTimers s now = some s') (hclock : before ≤ now) :
    ClockedStep strtod (before, ⟨s, some []⟩) (now, ⟨s', none⟩) :=
  ⟨_, .timers result, rfl, hclock⟩

end ClockedStep

def ClockedReachable (strtod : Bytes → Double × Nat) (now : UInt64)
    (loop : Loop) : Prop :=
  ∃ timeout start, Relation.ReflTransGen (ClockedStep strtod)
    (start, ⟨{ idleTimeoutMs := timeout }, none⟩) (now, loop)

theorem ClockedReachable.tail {loop loop' : Loop}
    (h : ClockedReachable strtod now loop)
    (hstep : ClockedStep strtod (now, loop) (now', loop')) :
    ClockedReachable strtod now' loop' := by
  obtain ⟨timeout, start, hrun⟩ := h
  exact ⟨timeout, start, hrun.tail hstep⟩

theorem ClockedReachable.loopReachable {loop : Loop}
    (h : ClockedReachable strtod now loop) : LoopReachable strtod loop := by
  obtain ⟨timeout, start, hrun⟩ := h
  exact ⟨timeout, hrun.lift Prod.snd fun _ _ ⟨action, hclocked⟩ =>
    ⟨action, hclocked.step⟩⟩

theorem Clocked.idleInv {state state' : UInt64 × Loop} {action : Action}
    (hstep : Clocked strtod state action state')
    (h : IdleInv state.1 state.2.server order) :
    ∃ order', IdleInv state'.1 state'.2.server order' := by
  obtain ⟨before, loop⟩ := state
  obtain ⟨after, loop'⟩ := state'
  obtain ⟨hstep, rfl, hclock⟩ := hstep
  cases hstep.move with
  | @poll s results _ input now =>
      rcases acceptPart_cases s results input now with ⟨hsame, -⟩ | ⟨fd, rfl⟩
      · simp only [hsame]
        exact ⟨order, h.mono hclock⟩
      · exact ⟨order ++ [fd], h.accept (hstep.fresh fd rfl) hclock⟩
  | handle result => exact handleReady_idleInv result h hclock
  | @timers s s' now result =>
      obtain ⟨reaped, removed, kept, hreap, -, hkept, -⟩ :=
        reapIdle_idleInv now h (Nat.lt_succ_of_le h.length_le)
      simp only [processTimers, hreap, Option.bind_eq_bind, Option.bind_some]
        at result
      obtain ⟨db, -, hdone⟩ := Option.bind_eq_some_iff.mp result
      cases hdone
      exact ⟨kept, (hkept.mono hclock).congr rfl rfl⟩
  | take _ => exact ⟨order, h.congr rfl rfl⟩
  | finish _ _ => exact ⟨order, h.congr rfl rfl⟩

theorem ClockedReachable.idleInv {loop : Loop}
    (h : ClockedReachable strtod now loop) :
    ∃ order, IdleInv now loop.server order := by
  obtain ⟨timeout, start, hrun⟩ := h
  have hall : ∀ state, Relation.ReflTransGen (ClockedStep strtod)
      (start, ⟨{ idleTimeoutMs := timeout }, none⟩) state →
        ∃ order, IdleInv state.1 state.2.server order := by
    intro state hrun
    induction hrun with
    | refl => exact ⟨[], .empty start timeout⟩
    | tail _ hstep ih =>
        obtain ⟨order, hinv⟩ := ih
        obtain ⟨action, hstep⟩ := hstep
        exact hstep.idleInv hinv
  exact hall _ hrun

/-- At the end of every step the idle list links the open connections once
each, the least active in front; the reaping loop takes them off the front and
returns. -/
theorem idle_list_links_connections {loop : Loop}
    (hreach : ClockedReachable strtod now loop) :
    ∃ order : List Nat,
      loop.server.idle.Ring none (order.map some) ∧ order.Nodup ∧
      (∀ fd, fd ∈ order ↔ loop.server.conn fd ≠ none) ∧
      (∀ fd c, loop.server.conn fd = some c → c.fd = fd) ∧
      (order.map (lastActive loop.server)).Pairwise (· ≤ ·) ∧
      (∀ fd rest, order = fd :: rest →
        loop.server.idle.next none = some fd ∧
        ∃ c, loop.server.conn fd = some c ∧
          (loop.server.resetConn c.fd).idle.Ring none (rest.map some)) ∧
      ∀ clock, ∃ s' removed kept,
        reapIdle clock (loop.server.conns.length + 1) loop.server = some s' ∧
        order = removed ++ kept ∧ s'.idle.Ring none (kept.map some) ∧
        ∀ fd, fd ∈ kept ↔ s'.conn fd ≠ none := by
  obtain ⟨order, h⟩ := hreach.idleInv
  refine ⟨order, h.ring, h.nodup, h.mem, h.own, ?_, ?_, ?_⟩
  · exact List.pairwise_map.mpr h.sorted
  · rintro fd rest rfl
    obtain ⟨-, hnext, c, hc, -, hrest⟩ := h.front
    exact ⟨hnext, c, hc, hrest.ring⟩
  · intro clock
    obtain ⟨s', removed, kept, hreap, horder, hkept, -⟩ :=
      reapIdle_idleInv clock h (Nat.lt_succ_of_le h.length_le)
    exact ⟨s', removed, kept, hreap, horder, hkept.ring, hkept.mem⟩

/-- A second client comes before the first sends a byte. -/
theorem exists_active : ∃ s first second,
    ClockedReachable (fun _ => ({}, 0)) 7 ⟨s, some []⟩ ∧
      s.conns = [some first, some second] ∧ first.lastActiveMs = 7 ∧
      second.lastActiveMs = 6 := by
  let one := acceptPart { idleTimeoutMs := 30000 } (some (.accepted 0)) 5
  let two := acceptPart one (some (.accepted 1)) 6
  let ask : Ready := ⟨{ pollIn := true }, 7, .bytes [0], .again, fun _ => ⟨0, 0⟩⟩
  have heval : (handleReady (fun _ => ({}, 0)) two 0 ask).map (fun result =>
      result.1.conns.map (Option.map Conn.lastActiveMs)) = some [some 7, some 6] := by
    decide +kernel
  obtain ⟨⟨s, traffic⟩, hresult, heval⟩ := Option.map_eq_some_iff.mp heval
  have haccept : ClockedReachable (fun _ => ({}, 0)) 5 ⟨one, some []⟩ :=
    ⟨30000, 0, .single (.poll .nil (some (.accepted 0)) (fun _ _ => rfl) (by decide))⟩
  have htimers : processTimers one 5 = some one := rfl
  have hpolled : List.Forall₂ Polled (pollArgs one) [ask] :=
    .cons ⟨fun _ => rfl, nofun, by decide⟩ .nil
  have hpoll : ClockedStep (fun _ => ({}, 0)) (5, ⟨one, none⟩)
      (6, ⟨two, some [(0, ask)]⟩) :=
    .poll hpolled (some (.accepted 1)) (by rintro _ ⟨⟩; rfl) (by decide)
  have hreach := ((haccept.tail (.timers htimers (by decide))).tail hpoll).tail
    (.handle hresult (by decide))
  simp only [List.map_eq_cons_iff, List.map_eq_nil_iff, Option.map_eq_some_iff] at heval
  obtain ⟨_, _, hconns, ⟨first, rfl, hfirst⟩, _, _, rfl, ⟨second, rfl, hsecond⟩, rfl⟩ :=
    heval
  exact ⟨s, first, second, hreach, hconns, hfirst, hsecond⟩

theorem idle_list_links_connections_two : ∃ loop : Loop,
    ClockedReachable (fun _ => ({}, 0)) 7 loop ∧
      (loop.server.conn 0).isSome ∧ (loop.server.conn 1).isSome ∧
      loop.server.idle.Ring none [some 1, some 0] ∧
      loop.server.idle.next none = some 1 := by
  obtain ⟨s, first, second, hreach, hconns, hfirst, hsecond⟩ := exists_active
  obtain ⟨order, hring, hnodup, hmem, -, hsorted, hfront, -⟩ :=
    idle_list_links_connections hreach
  have hconn : ∀ fd, s.conn fd = [some first, some second][fd]?.join := fun fd => by
    rw [Server.conn, hconns]
  have horder : order = [1, 0] := by
    have hboth : order.Perm [1, 0] := by
      rw [List.perm_ext_iff_of_nodup hnodup (by decide)]
      intro fd
      rw [hmem, hconn]
      rcases fd with _ | _ | fd <;> simp
    rcases List.perm_pair.mp hboth with rfl | rfl
    · rfl
    · simp [lastActive, hconn, hfirst, hsecond] at hsorted
  subst horder
  exact ⟨_, hreach, by simp [hconn], by simp [hconn], hring, (hfront 1 [0] rfl).1⟩

end MiniRedis.EventLoop
