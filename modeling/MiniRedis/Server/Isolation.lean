import MiniRedis.Server.Dispatch
import MiniRedis.Server.History

namespace MiniRedis.EventLoop

open MiniRedis.Data MiniRedis.Ds MiniRedis.Store MiniRedis.Protocol
open MiniRedis.Server

/-! What a client sees of some keys depends on the requests on these keys, and
on nothing else that happens in the server. -/

variable {strtod : Bytes → Double × Nat} {s : Server} {trace : List Event}
  {db db' plain plain' : Database} {keys : Bytes → Bool} {key body resp : Bytes}
  {clock : Clock} {last now : UInt64}

/-- A request on one of the keys, or one that is rejected before it looks at
any. -/
def within (keys : Bytes → Bool) : Request → Bool
  | .on key _ => keys key
  | .keys => false
  | .reject _ _ => true

theorem live_later (hle : last ≤ now) (slot : Slot) :
    live now (live last slot) = live now slot := by
  rcases slot with _ | ⟨e, _ | deadline⟩
  · rfl
  · rfl
  · have hnat := UInt64.le_iff_toNat_le.mp hle
    by_cases hdue : deadline ≤ last.toNat
    · rw [live_eq_none last hdue, live_eq_none now (hdue.trans hnat)]
      rfl
    · have hlive : live last (some (e, some deadline)) = some (e, some deadline) := by
        simp [live, overdue, hdue]
      rw [hlive]

/-- From `last` on a reader of the keys cannot tell the databases apart. -/
structure Abreast (keys : Bytes → Bool) (db plain : Database) (last : UInt64) :
    Prop where
  inv : db.Inv
  mirrored : plain.Inv
  live : ∀ key, keys key = true →
    live last (plain.stored key) = live last (db.stored key)

namespace Abreast

theorem later (h : Abreast keys db plain last) (hle : last ≤ now) :
    Abreast keys db plain now := by
  refine ⟨h.inv, h.mirrored, ?_⟩
  intro key hkey
  rw [← live_later hle, h.live key hkey, live_later hle]

theorem congr (h : Abreast keys db plain last) (hinv : db'.Inv)
    (hlive : ∀ key, keys key = true →
      Store.live last (db'.stored key) = Store.live last (db.stored key)) :
    Abreast keys db' plain last := by
  refine ⟨hinv, h.mirrored, ?_⟩
  intro key hkey
  rw [h.live key hkey, hlive key hkey]

theorem store {slot : Slot} (h : Abreast keys db plain last)
    (hstores : Stores db db' key slot) (hplain : Stores plain plain' key slot) :
    Abreast keys db' plain' last := by
  refine ⟨hstores.inv, hplain.inv, ?_⟩
  intro other hother
  rw [hstores.stored, hplain.stored]
  by_cases heq : other = key
  · rw [heq, Function.update_self, Function.update_self]
  · rw [Function.update_of_ne heq, Function.update_of_ne heq]
    exact h.live other hother

/-- The live slot of its key is all that a request looks at. -/
theorem respond (h : Abreast keys db plain clock.lookup)
    (horder : clock.lookup ≤ clock.act)
    (hwithin : within keys (requestOf strtod body) = true)
    (hrespond : Server.respond strtod body db clock = some (db', resp)) :
    ∃ plain', Server.respond strtod body plain clock = some (plain', resp) ∧
      Abreast keys db' plain' clock.act := by
  have hanswers := @respond_answers strtod db h.inv body clock
  have hplain := @respond_answers strtod plain h.mirrored body clock
  rw [hrespond] at hanswers
  generalize Server.respond strtod body plain clock = result at hplain ⊢
  generalize requestOf strtod body = request at hwithin hanswers hplain
  cases hanswers with
  | reject =>
      cases hplain
      exact ⟨plain, rfl, h.later horder⟩
  | keys => cases hwithin
  | on hvalid hacts =>
      obtain ⟨slot, value, haction, hstores, rfl⟩ := hacts.of_some
      cases hplain with
      | on _ hmirrored =>
          rw [h.live _ hwithin, haction] at hmirrored
          cases hmirrored with
          | reply hplain => exact ⟨_, rfl, (h.later horder).store hstores hplain⟩

/-- A request on another key leaves the slots of these alone, and so does
`KEYS`. -/
theorem ignore (h : Abreast keys db plain clock.lookup)
    (horder : clock.lookup ≤ clock.act)
    (hwithin : within keys (requestOf strtod body) = false)
    (hrespond : Server.respond strtod body db clock = some (db', resp)) :
    Abreast keys db' plain clock.act := by
  have hanswers := @respond_answers strtod db h.inv body clock
  rw [hrespond] at hanswers
  generalize requestOf strtod body = request at hwithin hanswers
  cases hanswers with
  | reject => exact h.later horder
  | keys => exact h.later horder
  | @on key _ _ _ hacts =>
      obtain ⟨_, _, _, hstores, -⟩ := hacts.of_some
      refine (h.later horder).congr hstores.inv ?_
      intro other hother
      have hne : other ≠ key := by
        rintro rfl
        rw [within, hother] at hwithin
        cases hwithin
      rw [hstores.stored, Function.update_of_ne hne]

theorem reap (h : Abreast keys db plain now) (hreap : reapKeys now db = some db') :
    Abreast keys db' plain now := by
  obtain ⟨hinv, hkept⟩ := reapLoop_keeps h.inv hreap
  refine h.congr hinv ?_
  intro key _
  rcases hkept key with hsame | ⟨hnone, hdue⟩
  · rw [hsame]
  · rw [hnone, hdue]
    rfl

end Abreast

def requestsOn (strtod : Bytes → Double × Nat) (keys : Bytes → Bool)
    (history : List (Nat × Exchange)) : List Exchange :=
  (history.map Prod.snd).filter fun exchange =>
    within keys (requestOf strtod exchange.body)

def Isolated (strtod : Bytes → Double × Nat) (keys : Bytes → Bool) (db : Database)
    (history : List (Nat × Exchange)) (past : List UInt64) : Prop :=
  ∃ plain, (requestsOn strtod keys history).foldlM (replayExchange strtod)
      { pool := none } = some plain ∧
    ∀ later, (∀ reading ∈ past, reading ≤ later) → Abreast keys db plain later

namespace Isolated

variable {history : List (Nat × Exchange)} {past : List UInt64} {fd : Nat}

theorem exchange {exchange : Exchange}
    (h : Isolated strtod keys db history past)
    (hclock : (past ++ Exchange.readings exchange).Pairwise (· ≤ ·))
    (hrespond : Server.respond strtod exchange.body db exchange.clock =
      some (db', exchange.resp)) :
    Isolated strtod keys db' (history ++ [(fd, exchange)])
      (past ++ Exchange.readings exchange) := by
  obtain ⟨plain, hplain, habreast⟩ := h
  obtain ⟨_, hpair, hpast⟩ := List.pairwise_append.mp hclock
  have hbefore := habreast exchange.clock.lookup fun reading hmem =>
    hpast reading hmem _ (.head _)
  have horder := (List.pairwise_cons.mp hpair).1 _ (.head _)
  have hlast : exchange.clock.act ∈ past ++ Exchange.readings exchange :=
    List.mem_append_right _ (.tail _ (.head _))
  rw [Isolated, requestsOn, List.map_append, List.filter_append,
    List.foldlM_append, ← requestsOn, hplain]
  cases hwithin : within keys (requestOf strtod exchange.body) with
  | true =>
      obtain ⟨plain', hmirrored, hafter⟩ := hbefore.respond horder hwithin hrespond
      refine ⟨plain', ?_, fun later hlater => hafter.later (hlater _ hlast)⟩
      simp [hwithin, replayExchange_eq_some.mpr hmirrored]
  | false =>
      have hafter := hbefore.ignore horder hwithin hrespond
      refine ⟨plain, ?_, fun later hlater => hafter.later (hlater _ hlast)⟩
      simp [hwithin]

theorem reap (h : Isolated strtod keys db history past)
    (hclock : (past ++ [now]).Pairwise (· ≤ ·))
    (hreap : reapKeys now db = some db') :
    Isolated strtod keys db' history (past ++ [now]) := by
  obtain ⟨plain, hplain, habreast⟩ := h
  refine ⟨plain, hplain, ?_⟩
  intro later hlater
  have hnow := habreast now fun reading hmem =>
    (List.pairwise_append.mp hclock).2.2 reading hmem now (.head _)
  exact (hnow.reap hreap).later (hlater now (List.mem_append_right _ (.head _)))

theorem congr (h : Isolated strtod keys db history past)
    (hkeeps : db.Inv → db'.Inv ∧ db'.stored = db.stored) :
    Isolated strtod keys db' history past := by
  obtain ⟨plain, hplain, habreast⟩ := h
  refine ⟨plain, hplain, ?_⟩
  intro later hlater
  have hbefore := habreast later hlater
  obtain ⟨hinv, hstored⟩ := hkeeps hbefore.inv
  refine hbefore.congr hinv ?_
  intro key _
  rw [hstored]

theorem follows : Follows strtod (Isolated strtod keys) where
  exchange _ _ h hclock hrespond := h.exchange hclock hrespond
  reap h hclock hreap := h.reap hclock hreap
  take h htake := h.congr fun hinv => workerTake_keeps hinv htake
  finish h hfinish := h.congr fun hinv => workerFinish_keeps hinv hfinish

end Isolated

/-- For any set of keys: the requests on them, executed one after another on a
database of their own with no other request, no timers and no workers, get the
same replies and leave the same values and deadlines. -/
theorem requests_isolated (hrun : ServerRun strtod s trace)
    (hclock : (trace.flatMap Event.readings).Pairwise (· ≤ ·))
    (keys : Bytes → Bool) :
    ∃ plain, (requestsOn strtod keys (history trace)).foldlM
        (replayExchange strtod) { pool := none } = some plain ∧
      ∀ now, (∀ reading ∈ trace.flatMap Event.readings, reading ≤ now) →
        ∀ key, keys key = true →
          live now (plain.stored key) = live now (s.db.stored key) := by
  have hstart : Isolated strtod keys { pool := some {} } [] [] :=
    ⟨{ pool := none }, rfl, fun _ _ =>
      ⟨.empty _ (.inr rfl), .empty _ (.inl rfl), fun _ _ => rfl⟩⟩
  obtain ⟨plain, hplain, habreast⟩ :=
    Isolated.follows.run hstart hclock hrun.served.replays
  exact ⟨plain, hplain, fun now hnow => (habreast now hnow).live⟩

theorem requests_isolated_crossing : ∃ s trace plain,
    ServerRun (fun _ => ({}, 0)) s trace ∧ history trace = crossing ∧
      (requestsOn (fun _ => ({}, 0)) (· == ascii "a") crossing).map Exchange.body =
        [encodeReq [ascii "SET", ascii "a", ascii "x"],
          encodeReq [ascii "GET", ascii "a"]] ∧
      (requestsOn (fun _ => ({}, 0)) (· == ascii "a") crossing).foldlM
        (replayExchange fun _ => ({}, 0)) { pool := none } = some plain ∧
      live 3 (plain.stored (ascii "a")) = live 3 (s.db.stored (ascii "a")) := by
  obtain ⟨s, trace, hrun, hreadings, hhistory⟩ := crossing_run
  obtain ⟨plain, hplain, hlive⟩ :=
    requests_isolated hrun (by rw [hreadings]; decide) (· == ascii "a")
  rw [hhistory] at hplain
  exact ⟨s, trace, plain, hrun, hhistory, by decide +kernel, hplain,
    hlive 3 (by simp [hreadings]) _ (by decide)⟩

end MiniRedis.EventLoop
