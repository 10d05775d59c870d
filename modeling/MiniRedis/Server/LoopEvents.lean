import MiniRedis.Server.FramingClose

namespace MiniRedis.EventLoop

open MiniRedis.Data MiniRedis.Ds MiniRedis.Store MiniRedis.Protocol
open MiniRedis.Server

/-! Single steps of the loop with their events. -/

variable {strtod : Bytes → Double × Nat} {s s' : Server} {fd : Nat}
  {loop loop' : Loop} {trace events : List Event}

def LoopEmits (strtod : Bytes → Double × Nat) (loop : Loop) (events : List Event)
    (loop' : Loop) : Prop :=
  ∃ action, LoopStep strtod loop action loop' ∧ action.events = events

theorem LoopStep.emits {action : Action} (h : LoopStep strtod loop action loop') :
    LoopEmits strtod loop action.events loop' :=
  ⟨action, h, rfl⟩

theorem LoopRun.emit (hrun : LoopRun strtod loop trace)
    (h : LoopEmits strtod loop events loop') :
    LoopRun strtod loop' (trace ++ events) := by
  obtain ⟨action, hstep, rfl⟩ := h
  exact hrun.step hstep

theorem Handled.streamed {ready : Ready} {traffic past : Traffic} {c c' : Conn}
    (h : Handled strtod s s' fd ready traffic c c') (hstream : Streamed c past) :
    Streamed c' (past.append traffic) := by
  obtain ⟨between, half, hread, hwrite⟩ := h.parts
  have hbefore : Streamed { c with lastActiveMs := ready.now } past :=
    hstream.congr rfl rfl
  obtain ⟨hbetween, hsent⟩ := hbefore.read hread
  exact hbetween.write hsent hwrite

/-- What a step does to an open connection: nothing, it closes it, or it handles
it. -/
theorem LoopEmits.conn_cases {c : Conn} (h : LoopEmits strtod loop events loop')
    (hconn : loop.server.conn fd = some c) :
    ((∀ past, events.foldl (observe fd) past = past) ∧
      (loop'.server.conn fd = some c ∨ loop'.server.conn fd = none)) ∨
    ∃ ready traffic c', events = [.handled fd traffic] ∧
      Handled strtod loop.server loop'.server fd ready traffic c c' := by
  obtain ⟨action, hstep, rfl⟩ := h
  cases hstep.move with
  | @poll s results _ input now =>
      refine .inl ?_
      rcases acceptPart_cases s results input now with ⟨hsame, hnone⟩ | ⟨other, rfl⟩
      · rw [hsame, hnone]
        exact ⟨fun _ => rfl, .inl hconn⟩
      · have hne : fd ≠ other := by
          rintro rfl
          rw [hstep.fresh fd rfl] at hconn
          cases hconn
        refine ⟨?_, .inl ?_⟩
        · intro past
          simp [Action.events, observe, Ne.symm hne]
        · rw [acceptPart, acceptNew_conn, Function.update_of_ne hne]
          exact hconn
  | @handle s s' other ready traffic rest result =>
      rcases handleReady_cases result with ⟨rfl, rfl⟩ | ⟨found, c', hhandled⟩
      · refine .inl ⟨?_, .inl hconn⟩
        intro past
        simp [Action.events, observe, Traffic.append_empty]
      · by_cases hfd : other = fd
        · subst hfd
          have hfound := hhandled.found
          rw [hconn, Option.some.injEq] at hfound
          subst hfound
          exact .inr ⟨ready, traffic, c', rfl, hhandled⟩
        · refine .inl ⟨?_, .inl ?_⟩
          · intro past
            simp [Action.events, observe, hfd]
          · rw [hhandled.conns, Function.update_of_ne (Ne.symm hfd)]
            exact hconn
  | timers result =>
      refine .inl ⟨fun _ => rfl, ?_⟩
      rcases (processTimers_conn result).2 fd with hsame | hnone
      · exact .inl (hsame.trans hconn)
      · exact .inr hnone
  | take result => exact .inl ⟨fun _ => rfl, .inl hconn⟩
  | finish ent result => exact .inl ⟨fun _ => rfl, .inl hconn⟩

theorem LoopEmits.stream {c : Conn} (h : LoopEmits strtod loop events loop')
    (hconn : loop.server.conn fd = some c) {past : Traffic}
    (hstream : Streamed c past) :
    events.foldl (observe fd) past = past.append (session fd events) ∧
      ∃ c', Streamed c' (past.append (session fd events)) ∧
        (loop'.server.conn fd = some c' ∨ loop'.server.conn fd = none) := by
  rcases h.conn_cases hconn with
    ⟨hquiet, hafter⟩ | ⟨ready, traffic, c', rfl, hhandled⟩
  · have hnone : session fd events = {} := hquiet {}
    rw [hquiet past, hnone, Traffic.append_empty]
    exact ⟨rfl, c, hstream, hafter⟩
  · have hsome : session fd [.handled fd traffic] = traffic := by
      simp [session, observe, Traffic.append]
    rw [hsome, List.foldl_cons, List.foldl_nil, observe, if_pos rfl]
    refine ⟨rfl, c', hhandled.streamed hstream, ?_⟩
    rw [hhandled.conns, Function.update_self]
    split
    · exact .inr rfl
    · exact .inl rfl

end MiniRedis.EventLoop
