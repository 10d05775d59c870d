import MiniRedis.Server.Request
import MiniRedis.Store.HashMapRuns

namespace MiniRedis.Server

open MiniRedis.Data MiniRedis.Ds MiniRedis.Store MiniRedis.Protocol

/-! A command executes the request it carries. -/

variable {db db' : Database} {key : Bytes} {out : Bytes} {p : Ptr} {e : Entry}
  {due : Option Nat} {now : UInt64} {clock : Clock}

theorem dropEntry_stores (h : db.Inv) (hholds : db.Holds p e due) :
    ∃ db', dropEntry db p = some db' ∧ Stores db db' e.key none := by
  obtain ⟨map, db', hdelete, hdel, hstores⟩ := unlink_stores h hholds
  exact ⟨db', by simp [dropEntry, hholds.entry, hdelete, hdel], hstores⟩

theorem createEntry_stores (h : db.Inv) (hmiss : db.stored e.key = none)
    (hhash : e.hcode = strHash e.key) (hzset : ∃ tree, e.zset.Inv tree) :
    ∃ db' p, createEntry db e = some (db', p) ∧ db'.Holds p e none ∧
      Stores db db' e.key (some (e, none)) := by
  obtain ⟨map, hinsert, hholds, hstores⟩ :=
    newEntry_stores h hmiss hhash hzset
  refine ⟨_, _, ?_, hholds, hstores⟩
  rw [createEntry]
  exact congrArg (Option.bind · _) hinsert

inductive LookedUp (db db' : Database) (key : Bytes) (now : UInt64) :
    Option Ptr → Prop
  | absent (hstores : Stores db db' key none)
      (hslot : live now (db.stored key) = none) : LookedUp db db' key now none
  | present {p : Ptr} {e : Entry} {due : Option Nat}
      (hstores : Stores db db' key (some (e, due)))
      (hholds : db'.Holds p e due) (hkey : e.key = key)
      (hslot : live now (db.stored key) = some (e, due)) :
      LookedUp db db' key now (some p)

theorem lookupEntry_spec (h : db.Inv) (key : Bytes) (now : UInt64) :
    ∃ db' ent, lookupEntry db key now = some (db', ent) ∧
      LookedUp db db' key now ent := by
  obtain ⟨map, found, hlookup, hstores, hfound⟩ := hmLookup_stores h key
  cases found with
  | none =>
      have hmiss : db.stored key = none := by
        rw [← hstores.stored_self]
        apply hstores.inv.stored_eq_none.mpr
        intro p hp hkey
        cases (hfound p).mpr ⟨hp, hkey⟩
      refine ⟨{ db with map := map }, none, by simp [lookupEntry, hlookup],
        .absent (hmiss ▸ hstores) (by rw [hmiss]; rfl)⟩
  | some p =>
      obtain ⟨hp, hkey⟩ := (hfound p).mp rfl
      obtain ⟨e, hentry⟩ := hstores.inv.exists_entry hp
      have hekey : e.key = key := (Database.key_eq hentry).symm.trans hkey
      have hholds : ∀ due, db.ttl.timer p = due →
          Database.Holds { db with map := map } p e due :=
        fun due hdue => ⟨hp, hentry, hdue⟩
      have hslot : ∀ due, db.ttl.timer p = due →
          db.stored key = some (e, due) := by
        intro due hdue
        rw [← hstores.stored_self, ← hekey]
        exact hstores.inv.stored_of_holds (hholds due hdue)
      cases hidx : db.ttl.index.idx p with
      | none =>
          have htimer := (hstores.inv.timers.timer_eq_none hp).mpr hidx
          have hstored := hslot none htimer
          exact ⟨{ db with map := map }, some p,
            by simp [lookupEntry, hlookup, hidx],
            .present (hstored ▸ hstores) (hholds none htimer) hekey
              (by rw [hstored]; rfl)⟩
      | some i =>
          obtain ⟨item, hitem, _⟩ := hstores.inv.timers.backed p hp i hidx
          have htimer : db.ttl.timer p = some item.val := by
            simp only at hitem
            simp [Heap.timer, hidx, hitem]
          have hstored := hslot _ htimer
          by_cases hdue : item.val ≤ now.toNat
          · obtain ⟨db', hdrop, hdropped⟩ :=
              dropEntry_stores hstores.inv (hholds _ htimer)
            rw [hekey] at hdropped
            refine ⟨db', none, ?_, .absent (hstores.trans hdropped) ?_⟩
            · simp only at hitem
              simp [lookupEntry, hlookup, hidx, hitem, hdue, hdrop]
            · rw [hstored]
              exact live_eq_none now hdue
          · refine ⟨{ db with map := map }, some p, ?_,
              .present (hstored ▸ hstores) (hholds _ htimer) hekey ?_⟩
            · simp only at hitem
              simp [lookupEntry, hlookup, hidx, hitem, hdue]
            · rw [hstored]
              simp [live, overdue, hdue]

/-- A call that does to the slot of `key`, and answers, what an action
prescribes; it crashes exactly when the action does. -/
inductive Acts (db : Database) (key out : Bytes) :
    Option (Slot × Value) → Option (Database × Bytes) → Prop
  | crash : Acts db key out none none
  | reply {db' : Database} {slot : Slot} {value : Value}
      (hstores : Stores db db' key slot) :
      Acts db key out (some (slot, value)) (some (db', out ++ value.encode))

theorem Acts.of_some {action : Option (Slot × Value)} {out' : Bytes}
    (h : Acts db key out action (some (db', out'))) :
    ∃ slot value, action = some (slot, value) ∧ Stores db db' key slot ∧
      out' = out ++ value.encode := by
  cases h with
  | reply hstores => exact ⟨_, _, rfl, hstores, rfl⟩

theorem Acts.after {slot : Slot} {action : Option (Slot × Value)}
    {result : Option (Database × Bytes)} (hstores : Stores db db' key slot)
    (h : Acts db' key out action result) : Acts db key out action result := by
  cases h with
  | crash => exact .crash
  | reply hnext => exact .reply (hstores.trans hnext)

/-- The clamp keeps an expiry argument from overflowing. -/
theorem clampedTtl_range {unitMs n : Int} (hunit : 0 < unitMs) (hn : 0 < n) :
    0 ≤ clampedTtl unitMs n ∧ clampedTtl unitMs n ≤ int64Max := by
  have hmax : int64Max / unitMs * unitMs ≤ int64Max :=
    Int.ediv_mul_le int64Max (ne_of_gt hunit)
  have hpos : 0 ≤ int64Max / unitMs :=
    Int.ediv_nonneg (by decide) (le_of_lt hunit)
  unfold clampedTtl
  split
  · exact ⟨mul_nonneg hpos (le_of_lt hunit), hmax⟩
  next hle =>
    refine ⟨mul_nonneg (le_of_lt hn) (le_of_lt hunit), le_trans ?_ hmax⟩
    exact mul_le_mul_of_nonneg_right (not_lt.mp hle) (le_of_lt hunit)

theorem checkedInt64_clampedTtl {unitMs n : Int} (hunit : 0 < unitMs)
    (hn : 0 < n) :
    checkedInt64 (clampedTtl unitMs n) = some (clampedTtl unitMs n) := by
  obtain ⟨hlow, hhigh⟩ := clampedTtl_range hunit hn
  have hmin : int64Min ≤ 0 := by decide
  exact checkedInt64_eq_some (hmin.trans hlow) hhigh

section Handlers

variable (verb key out : Bytes) (clock : Clock) (h : db.Inv)

include h

theorem doGet_acts :
    Acts db key out (Op.get.act key clock.act (live clock.lookup (db.stored key)))
      (doGet [verb, key] db out clock) := by
  obtain ⟨db', ent, hlookup, hlooked⟩ := lookupEntry_spec h key clock.lookup
  cases hlooked with
  | absent hstores hslot =>
      rw [hslot]
      simp only [doGet, hlookup, List.getElem?_cons_succ, List.getElem?_cons_zero,
        Option.bind_eq_bind, Option.bind_some, outNil_eq]
      exact .reply hstores
  | present hstores hholds hkey hslot =>
      rw [hslot]
      simp only [doGet, hlookup, List.getElem?_cons_succ, List.getElem?_cons_zero,
        Option.bind_eq_bind, Option.bind_some, hholds.entry, Op.act]
      split
      · rw [outErr_eq]
        exact .reply hstores
      · rw [outStr_eq]
        exact .reply hstores

theorem doSet_acts (value : Bytes) :
    Acts db key out
      ((Op.set value).act key clock.act (live clock.lookup (db.stored key)))
      (doSet [verb, key, value] db out clock) := by
  obtain ⟨db', ent, hlookup, hlooked⟩ := lookupEntry_spec h key clock.lookup
  simp only [doSet, hlookup, List.getElem?_cons_succ, List.getElem?_cons_zero,
    Option.bind_eq_bind, Option.bind_some]
  cases hlooked with
  | absent hstores hslot =>
      obtain ⟨last, p, hcreate, _, hnew⟩ := createEntry_stores
        (e := stringEntry key value) hstores.inv hstores.stored_self rfl
        ZSet.Maps.empty.inv
      rw [stringEntry] at hcreate
      simp only [hslot, hcreate, Option.bind_some, outNil_eq]
      exact .reply (hstores.trans hnew)
  | @present p e due hstores hholds hkey hslot =>
      subst hkey
      simp only [hslot, hholds.entry, Option.bind_some, Op.act]
      split
      · rw [outErr_eq]
        exact .reply hstores
      · have hzset := (hstores.inv.entries p e hholds.entry).2
        obtain ⟨hwritten, hset⟩ := setEntry_stores { e with str := value }
          hstores.inv hholds rfl rfl hzset
        obtain ⟨last, httl, htimed⟩ :=
          entrySetTtl_stores hset.inv hwritten (-1) clock.act
        simp only [httl, Option.bind_some, outNil_eq]
        exact .reply (hstores.trans (hset.trans htimed))

theorem doDel_acts :
    Acts db key out (Op.del.act key clock.act (live clock.lookup (db.stored key)))
      (doDel [verb, key] db out clock) := by
  obtain ⟨db', ent, hlookup, hlooked⟩ := lookupEntry_spec h key clock.lookup
  simp only [doDel, hlookup, List.getElem?_cons_succ, List.getElem?_cons_zero,
    Option.bind_eq_bind, Option.bind_some]
  cases hlooked with
  | absent hstores hslot =>
      simp only [hslot, outInt_eq]
      exact .reply hstores
  | present hstores hholds hkey hslot =>
      obtain ⟨last, hdrop, hdropped⟩ := dropEntry_stores hstores.inv hholds
      subst hkey
      simp only [hslot, hdrop, Option.bind_some, outInt_eq]
      exact .reply (hstores.trans hdropped)

theorem doTtl_acts (inMs : Bool) :
    Acts db key out
      ((Op.ttl inMs).act key clock.act (live clock.lookup (db.stored key)))
      (doTtl inMs [verb, key] db out clock) := by
  obtain ⟨db', ent, hlookup, hlooked⟩ := lookupEntry_spec h key clock.lookup
  simp only [doTtl, hlookup, List.getElem?_cons_succ, List.getElem?_cons_zero,
    Option.bind_eq_bind, Option.bind_some]
  cases hlooked with
  | absent hstores hslot =>
      simp only [hslot, outInt_eq]
      exact .reply hstores
  | @present p e due hstores hholds hkey hslot =>
      simp only [hslot]
      cases hidx : db'.ttl.index.idx p with
      | none =>
          have hnone := (hstores.inv.timers.timer_eq_none hholds.linked).mpr hidx
          rw [hholds.timer] at hnone
          subst hnone
          simp only [outInt_eq]
          exact .reply hstores
      | some i =>
          obtain ⟨item, hitem, _⟩ :=
            hstores.inv.timers.backed p hholds.linked i hidx
          have htimer := hholds.timer
          simp only [Heap.timer, hidx, hitem, Option.bind_eq_bind,
            Option.bind_some] at htimer
          subst htimer
          simp only [hitem, Option.bind_some, outInt_eq]
          exact .reply hstores

theorem doPersist_acts :
    Acts db key out
      (Op.persist.act key clock.act (live clock.lookup (db.stored key)))
      (doPersist [verb, key] db out clock) := by
  obtain ⟨db', ent, hlookup, hlooked⟩ := lookupEntry_spec h key clock.lookup
  simp only [doPersist, hlookup, List.getElem?_cons_succ,
    List.getElem?_cons_zero, Option.bind_eq_bind, Option.bind_some]
  cases hlooked with
  | absent hstores hslot =>
      simp only [hslot, outInt_eq]
      exact .reply hstores
  | @present p e due hstores hholds hkey hslot =>
      subst hkey
      simp only [hslot]
      have hnone := hstores.inv.timers.timer_eq_none hholds.linked
      rw [hholds.timer] at hnone
      cases hidx : db'.ttl.index.idx p with
      | none =>
          have hdue := hnone.mpr hidx
          subst hdue
          simp only [outInt_eq]
          exact .reply hstores
      | some i =>
          obtain ⟨last, httl, htimed⟩ :=
            entrySetTtl_stores hstores.inv hholds (-1) clock.act
          cases due with
          | none =>
              rw [hnone.mp rfl] at hidx
              cases hidx
          | some deadline =>
              simp only [httl, Option.bind_some, outInt_eq]
              exact .reply (hstores.trans htimed)

theorem doExpire_acts (arg : Bytes) {unitMs n : Int} (hunit : 0 < unitMs)
    (harg : str2int arg = some n) :
    Acts db key out
      ((Op.expire unitMs n).act key clock.act
        (live clock.lookup (db.stored key)))
      (doExpire unitMs [verb, key, arg] db out clock) := by
  obtain ⟨db', ent, hlookup, hlooked⟩ := lookupEntry_spec h key clock.lookup
  simp only [doExpire, hlookup, List.getElem?_cons_succ,
    List.getElem?_cons_zero, Option.bind_eq_bind, Option.bind_some, harg]
  cases hlooked with
  | absent hstores hslot =>
      simp only [hslot, outInt_eq]
      exact .reply hstores
  | present hstores hholds hkey hslot =>
      subst hkey
      simp only [hslot, Op.act]
      split
      · obtain ⟨last, hdrop, hdropped⟩ := dropEntry_stores hstores.inv hholds
        simp only [hdrop, Option.bind_some, outInt_eq]
        exact .reply (hstores.trans hdropped)
      next hn =>
        obtain ⟨last, httl, htimed⟩ := entrySetTtl_stores hstores.inv hholds
          (clampedTtl unitMs n) clock.act
        have hchecked := checkedInt64_clampedTtl hunit (not_le.mp hn)
        rw [clampedTtl] at hchecked httl
        simp only [hchecked, httl, Option.bind_some, outInt_eq]
        exact .reply (hstores.trans htimed)

end Handlers

end MiniRedis.Server
