import MiniRedis.Server.Refinement
import MiniRedis.Server.Returns

namespace MiniRedis.Server

open MiniRedis.Data MiniRedis.Ds MiniRedis.Store MiniRedis.Protocol

/-! Runs of the database beside runs of the keyspace. -/

variable {strtod : Bytes → Double × Nat} {db db' : Database} {now last : UInt64}
  {keyspace : Keyspace}

/-- The database shows at `last` the live part of the keyspace, and its
deadlines are at most the longest expiry ahead. -/
structure Refines (db : Database) (keyspace : Keyspace) (last : UInt64) :
    Prop where
  inv : db.Inv
  cells : ∀ key, liveCell last (absSlot (db.stored key)) =
    liveCell last (keyspace key)
  bound : ∀ key e deadline, db.stored key = some (e, some deadline) →
    (deadline : Int) ≤ last.toNat + int64Max

theorem liveCell_later (hle : last ≤ now) (cell : Cell) :
    liveCell now (liveCell last cell) = liveCell now cell := by
  cases cell with
  | none => rfl
  | some content =>
      cases hdue : overdue last content.2 with
      | false => simp [liveCell, Option.filter_some, hdue]
      | true =>
          have hlater : overdue now content.2 = true := by
            have hnat := UInt64.le_iff_toNat_le.mp hle
            cases hdeadline : content.2 with
            | none => simp [hdeadline, overdue] at hdue
            | some deadline =>
                simp only [hdeadline, overdue, Option.any_some,
                  decide_eq_true_eq] at hdue ⊢
                omega
          simp [liveCell, Option.filter_some, hdue, hlater]

theorem Refines.later (h : Refines db keyspace last) (hle : last ≤ now) :
    Refines db keyspace now := by
  have hnat := UInt64.le_iff_toNat_le.mp hle
  refine ⟨h.inv, ?_, ?_⟩
  · intro key
    rw [← liveCell_later hle, h.cells key, liveCell_later hle]
  · intro key e deadline hstored
    have := h.bound key e deadline hstored
    omega

theorem Refines.live_eq (h : Refines db keyspace now) (key : Bytes) :
    absSlot (live now (db.stored key)) = liveCell now (keyspace key) := by
  rw [absSlot_live, h.cells key]

theorem Refines.ahead (h : Refines db keyspace now) (key : Bytes) :
    Ahead now (live now (db.stored key)) := by
  refine ⟨?_, ?_⟩
  · intro e due hlive
    have hstored := Option.eq_some_of_filter_eq_some hlive
    obtain ⟨p, hholds, _⟩ := h.inv.stored_eq_some.mp hstored
    exact (h.inv.entries p e hholds.entry).2
  · intro e deadline hlive
    have hstored := Option.eq_some_of_filter_eq_some hlive
    refine ⟨?_, h.bound key e deadline hstored⟩
    simpa [live, hstored, Option.filter_some, overdue] using hlive

theorem Refines.stores {key : Bytes} {op : Op} {slot : Slot}
    (h : Refines db keyspace now) (hop : op.Valid)
    (hstores : Stores db db' key slot)
    (hslot : absSlot slot = (op.spec now (liveCell now (keyspace key))).1) :
    Refines db' (keyspace.exec now (.on key op)).1 now := by
  refine ⟨hstores.inv, ?_, ?_⟩
  · intro other
    by_cases hkey : other = key
    · subst hkey
      simp only [Keyspace.exec, Function.update_self]
      rw [hstores.stored_self, hslot]
    · simp only [Keyspace.exec, Function.update_of_ne hkey]
      rw [hstores.stored, Function.update_of_ne hkey, h.cells other]
  · intro other e deadline hstored
    by_cases hkey : other = key
    · subst hkey
      rw [hstores.stored_self] at hstored
      have hwritten : absSlot slot = some (entryVal e, some deadline) := by
        rw [hstored, absSlot, Option.map_some]
      refine Op.spec_deadline hop ?_ (hslot.symm.trans hwritten)
      intro val due hcell
      rw [← h.live_eq, absSlot, Option.map_eq_some_iff] at hcell
      obtain ⟨⟨e', _⟩, hlive, hcontent⟩ := hcell
      cases hcontent
      exact ((h.ahead other).later e' due hlive).2
    · rw [hstores.stored, Function.update_of_ne hkey] at hstored
      exact h.bound other e deadline hstored

structure Executes (keyspace : Keyspace) (now : UInt64) (request : Request)
    (out : Bytes) (db' : Database) (out' : Bytes) : Prop where
  refines : Refines db' (keyspace.exec now request).1 now
  reply : ∃ value : Value, out' = out ++ value.encode ∧
    ∀ r, (keyspace.exec now request).2 = some r → Denotes value r

theorem Refines.request {out out' : Bytes} {cmd : List Bytes}
    (h : Refines db keyspace now)
    (hresult : doRequest strtod cmd db out ⟨now, now⟩ = some (db', out')) :
    Executes keyspace now (Request.ofCmd strtod cmd) out db' out' := by
  have hanswers := doRequest_answers h.inv strtod cmd out ⟨now, now⟩
  rw [hresult] at hanswers
  generalize Request.ofCmd strtod cmd = request at hanswers
  cases hanswers with
  | reject =>
      refine ⟨h, _, rfl, ?_⟩
      rintro _ ⟨⟩
      exact .err _ _
  | keys => exact ⟨h, _, rfl, by rintro _ ⟨⟩⟩
  | @on key op _ hvalid hacts =>
      obtain ⟨slot, value, haction, hstores, rfl⟩ := hacts.of_some
      have hspec := op.act_actsAs hvalid (h.ahead key) haction
      rw [h.live_eq] at hspec
      exact ⟨h.stores hvalid hstores hspec.cell, value, rfl, hspec.reply⟩

theorem Refines.reap (works : Nat) (h : Refines db keyspace now)
    (hresult : reapLoop now works db = some db') : Refines db' keyspace now := by
  obtain ⟨hinv, hkept⟩ := reapLoop_keeps h.inv hresult
  refine ⟨hinv, ?_, ?_⟩
  · intro key
    rw [← h.cells key]
    rcases hkept key with hsame | ⟨hnone, hdead⟩
    · rw [hsame]
    · rw [hnone, ← absSlot_live now (db.stored key), hdead]
      rfl
  · intro key e deadline hstored
    rcases hkept key with hsame | ⟨hnone, _⟩
    · exact h.bound key e deadline (hsame ▸ hstored)
    · rw [hnone] at hstored
      cases hstored

theorem Refines.congr (h : Refines db keyspace last) (hinv : db'.Inv)
    (hstored : db'.stored = db.stored) : Refines db' keyspace last := by
  refine ⟨hinv, ?_, ?_⟩
  · rw [hstored]
    exact h.cells
  · rw [hstored]
    exact h.bound

theorem Refines.empty (pool : Option Pool) (hpool : pool = none ∨ pool = some {})
    (last : UInt64) : Refines { pool := pool } (fun _ => none) last :=
  ⟨Database.Inv.empty pool hpool, fun _ => rfl, by rintro key e deadline ⟨⟩⟩

def DatabaseAction.exec (strtod : Bytes → Double × Nat) (keyspace : Keyspace) :
    DatabaseAction → Keyspace
  | .request cmd _ clock => (keyspace.exec clock.act (Request.ofCmd strtod cmd)).1
  | _ => keyspace

/-- Runs from the empty database under a clock that does not go back and that
stands still during a step. -/
inductive KeyspaceRun (strtod : Bytes → Double × Nat) :
    Database → Keyspace → UInt64 → Prop
  | start {pool : Option Pool} (hpool : pool = none ∨ pool = some {})
      (last : UInt64) :
      KeyspaceRun strtod { pool := pool } (fun _ => none) last
  | step {db db' : Database} {keyspace : Keyspace} {last : UInt64}
      {action : DatabaseAction} (run : KeyspaceRun strtod db keyspace last)
      (ordered : action.Ordered last)
      (instant : ∀ time ∈ action.readings, time = action.time last)
      (step : DatabaseStep strtod db action db') :
      KeyspaceRun strtod db' (action.exec strtod keyspace) (action.time last)

theorem Refines.step {action : DatabaseAction} (h : Refines db keyspace last)
    (hordered : action.Ordered last)
    (hinstant : ∀ time ∈ action.readings, time = action.time last)
    (hstep : DatabaseStep strtod db action db') :
    Refines db' (action.exec strtod keyspace) (action.time last) := by
  have hlater := h.later hordered.le
  cases hstep with
  | request cmd out clock result =>
      obtain ⟨lookup, act⟩ := clock
      obtain rfl : lookup = act := hinstant lookup List.mem_cons_self
      exact (hlater.request result).refines
  | reap now works _ result => exact hlater.reap works result
  | take result =>
      obtain ⟨hinv, hstored⟩ := workerTake_keeps h.inv result
      exact h.congr hinv hstored
  | finish ent result =>
      obtain ⟨hinv, hstored⟩ := workerFinish_keeps h.inv result
      exact h.congr hinv hstored

theorem KeyspaceRun.refines (h : KeyspaceRun strtod db keyspace last) :
    Refines db keyspace last := by
  induction h with
  | start hpool last => exact .empty _ hpool last
  | step _ ordered instant hstep ih => exact ih.step ordered instant hstep

/-- At every time after a run the database shows the live keys of the keyspace,
and answers as the keyspace does. Deadlines are the sums that `EXPIRE` promises
while the clock stays below `2 ^ 63`. -/
theorem keyspace_refinement (hrun : KeyspaceRun strtod db keyspace last)
    (hlater : last ≤ now) :
    (∀ key, absSlot (live now (db.stored key)) = liveCell now (keyspace key)) ∧
    (∀ cmd out, (Request.ofCmd strtod cmd).Answerable db now →
      ∃ db' value, doRequest strtod cmd db out ⟨now, now⟩ =
          some (db', out ++ Value.encode value) ∧
        (∀ r, (keyspace.exec now (Request.ofCmd strtod cmd)).2 = some r →
          Denotes value r) ∧
        ∀ later, now ≤ later → ∀ key,
          absSlot (live later (db'.stored key)) = liveCell later
            ((keyspace.exec now (Request.ofCmd strtod cmd)).1 key)) ∧
    (∃ db', reapKeys now db = some db' ∧ ∀ later, now ≤ later → ∀ key,
      absSlot (live later (db'.stored key)) = liveCell later (keyspace key)) ∧
    (now.toNat < 2 ^ 63 → ∀ unitMs n : Int, 0 < unitMs → 0 < n →
      (expiryDeadline now unitMs n : Int) =
        now.toNat + min n (int64Max / unitMs) * unitMs) := by
  have h := hrun.refines.later hlater
  refine ⟨h.live_eq, ?_, ?_, ?_⟩
  · intro cmd out hanswerable
    obtain ⟨⟨db', out'⟩, hresult⟩ :=
      doRequest_returns h.inv out ⟨now, now⟩ hanswerable
    obtain ⟨hrefines, value, rfl, hreply⟩ := h.request hresult
    exact ⟨db', value, hresult, hreply, fun later hle =>
      (hrefines.later hle).live_eq⟩
  · obtain ⟨db', hreap, _⟩ := reapLoop_spec now kMaxWorks h.inv
    exact ⟨db', hreap, fun later hle =>
      ((h.reap kMaxWorks hreap).later hle).live_eq⟩
  · intro hclock unitMs n hunit hn
    exact expiryDeadline_exact hclock hunit hn

theorem KeyspaceRun.afterRequest (h : KeyspaceRun strtod db keyspace last)
    (hlater : last ≤ now) (cmd : List Bytes)
    (hreturns : (doRequest strtod cmd db [] ⟨now, now⟩).isSome) :
    KeyspaceRun strtod (afterRequest strtod cmd ⟨now, now⟩ db)
      (keyspace.exec now (Request.ofCmd strtod cmd)).1 now := by
  obtain ⟨⟨db', out'⟩, hresult⟩ := Option.isSome_iff_exists.mp hreturns
  rw [Server.afterRequest, hresult]
  have hordered : (DatabaseAction.request cmd [] ⟨now, now⟩).Ordered last := by
    simp [DatabaseAction.Ordered, DatabaseAction.readings, hlater]
  exact h.step hordered (by simp [DatabaseAction.readings, DatabaseAction.time])
    (.request cmd [] _ hresult)

theorem timedKey_run : ∃ keyspace,
    KeyspaceRun (fun _ => ({}, 0)) timedKey keyspace 0 :=
  have hset := (KeyspaceRun.start (.inl rfl) 0).afterRequest (le_refl 0)
    [ascii "SET", ascii "a", ascii "x"] (by decide +kernel)
  ⟨_, hset.afterRequest (le_refl 0) [ascii "PEXPIRE", ascii "a", ascii "5"]
    (by decide +kernel)⟩

theorem keyspace_refinement_timed : ∃ keyspace : Keyspace,
    (∀ key, absSlot (live 3 (timedKey.stored key)) =
      liveCell 3 (keyspace key)) ∧ ∃ db', reapKeys 3 timedKey = some db' := by
  obtain ⟨keyspace, hrun⟩ := timedKey_run
  have h := keyspace_refinement hrun (by decide : (0 : UInt64) ≤ 3)
  obtain ⟨db', hreap, _⟩ := h.2.2.1
  exact ⟨keyspace, h.1, db', hreap⟩

end MiniRedis.Server
