import MiniRedis.Store.DatabaseOps
import Mathlib.Data.Finset.Card

namespace MiniRedis.Store

open MiniRedis.Data MiniRedis.Ds

/-! Which keys a reaping pass removes. -/

variable {db db' : Database} {now : UInt64} {key : Bytes} {e : Entry}

def Database.deadline (db : Database) (key : Bytes) : Option Nat :=
  (db.stored key).bind Prod.snd

def Database.dueKeys (db : Database) (now : UInt64) : Finset Bytes :=
  ((db.map.nodes.map db.key).filter fun key =>
    overdue now (db.deadline key)).toFinset

/-- The pass removes due keys only, the earliest first and as many as it may. -/
structure Reaps (now : UInt64) (works : Nat) (db db' : Database)
    (removed : Finset Bytes) : Prop where
  due : removed ⊆ db.dueKeys now
  count : removed.card = min works (db.dueKeys now).card
  first : ∀ key ∈ removed, ∀ left ∈ db.dueKeys now \ removed,
    ∀ deadline later, db.deadline key = some deadline →
      db.deadline left = some later → deadline ≤ later
  stored : ∀ key, db'.stored key =
    if key ∈ removed then none else db.stored key

theorem Database.deadline_eq_some {deadline : Nat} :
    db.deadline key = some deadline ↔
      ∃ e, db.stored key = some (e, some deadline) := by
  simp [Database.deadline, Option.bind_eq_some_iff]

namespace Database.Inv

theorem mem_dueKeys (h : db.Inv) : key ∈ db.dueKeys now ↔
    ∃ deadline, db.deadline key = some deadline ∧ deadline ≤ now.toNat := by
  simp only [Database.dueKeys, List.mem_toFinset, List.mem_filter, overdue,
    Option.any_eq_true, decide_eq_true_eq]
  refine and_iff_right_of_imp ?_
  rintro ⟨deadline, hdeadline, -⟩
  obtain ⟨e, hstored⟩ := Database.deadline_eq_some.mp hdeadline
  obtain ⟨p, hholds, rfl⟩ := h.stored_eq_some.mp hstored
  exact List.mem_map.mpr ⟨p, hholds.linked, Database.key_eq hholds.entry⟩

theorem exists_item (h : db.Inv) {deadline : Nat}
    (hdeadline : db.deadline key = some deadline) :
    ∃ item ∈ db.ttl.items, item.val = deadline := by
  obtain ⟨e, hstored⟩ := Database.deadline_eq_some.mp hdeadline
  obtain ⟨p, hholds, -⟩ := h.stored_eq_some.mp hstored
  have hitem := (h.timers.timer_eq_some hholds.linked deadline).mp hholds.timer
  exact ⟨_, hitem, rfl⟩

theorem root_le (h : db.Inv) {root : HeapItem Ptr} {deadline : Nat}
    (hroot : db.ttl.items.head? = some root)
    (hdeadline : db.deadline key = some deadline) : root.val ≤ deadline := by
  obtain ⟨item, hitem, rfl⟩ := h.exists_item hdeadline
  rw [List.head?_eq_getElem?] at hroot
  exact h.timers.valid.root_least hroot hitem

theorem exists_root (h : db.Inv) (hkey : key ∈ db.dueKeys now) :
    ∃ root, db.ttl.items.head? = some root ∧ root.val ≤ now.toNat := by
  obtain ⟨deadline, hdeadline, hdue⟩ := h.mem_dueKeys.mp hkey
  cases hhead : db.ttl.items.head? with
  | none =>
      obtain ⟨item, hitem, -⟩ := h.exists_item hdeadline
      rw [List.head?_eq_none_iff.mp hhead] at hitem
      cases hitem
  | some root => exact ⟨root, rfl, (h.root_le hhead hdeadline).trans hdue⟩

theorem dueKeys_eq_empty (h : db.Inv)
    (hroot : ∀ root, db.ttl.items.head? = some root → now.toNat < root.val) :
    db.dueKeys now = ∅ := by
  apply Finset.eq_empty_of_forall_notMem
  intro key hkey
  obtain ⟨root, hhead, hdue⟩ := h.exists_root hkey
  exact absurd hdue (Nat.not_le.mpr (hroot root hhead))

end Database.Inv

theorem Stores.deadline_of_ne (h : Stores db db' e.key none) (hne : key ≠ e.key) :
    db'.deadline key = db.deadline key := by
  rw [Database.deadline, h.stored, Function.update_of_ne hne, Database.deadline]

theorem Stores.dueKeys_erase (h : Stores db db' e.key none) (hinv : db.Inv) :
    db'.dueKeys now = (db.dueKeys now).erase e.key := by
  ext key
  rw [Finset.mem_erase, h.inv.mem_dueKeys, hinv.mem_dueKeys]
  by_cases hkey : key = e.key
  · have hnone : db'.deadline e.key = none := by
      rw [Database.deadline, h.stored_self]
      rfl
    simp [hkey, hnone]
  · simp [hkey, h.deadline_of_ne hkey]

theorem Reaps.nothing (works : Nat) (h : min works (db.dueKeys now).card = 0) :
    Reaps now works db db ∅ :=
  ⟨by simp, by simp [h], by simp, by simp⟩

theorem Reaps.cons {next : Database} {works : Nat} {removed : Finset Bytes}
    {root : HeapItem Ptr} (h : Reaps now works next db' removed)
    (hinv : db.Inv) (hstores : Stores db next e.key none)
    (hroot : db.ttl.items.head? = some root)
    (hdeadline : db.deadline e.key = some root.val)
    (hdue : root.val ≤ now.toNat) :
    Reaps now (works + 1) db db' (insert e.key removed) := by
  have hkeys : next.dueKeys now = (db.dueKeys now).erase e.key :=
    hstores.dueKeys_erase hinv
  have hmem : e.key ∈ db.dueKeys now :=
    hinv.mem_dueKeys.mpr ⟨root.val, hdeadline, hdue⟩
  have hsub := h.due
  rw [hkeys] at hsub
  have hout : e.key ∉ removed := fun hin =>
    (Finset.mem_erase.mp (hsub hin)).1 rfl
  refine ⟨?_, ?_, ?_, ?_⟩
  · exact Finset.insert_subset hmem
      (hsub.trans (Finset.erase_subset e.key (db.dueKeys now)))
  · have hcount := h.count
    rw [hkeys, Finset.card_erase_of_mem hmem] at hcount
    have hpos := Finset.card_pos.mpr ⟨e.key, hmem⟩
    rw [Finset.card_insert_of_notMem hout, hcount]
    omega
  · intro key hkey left hleft deadline later hearly hlate
    obtain ⟨hleft, hstays⟩ := Finset.mem_sdiff.mp hleft
    rw [Finset.mem_insert, not_or] at hstays
    rcases Finset.mem_insert.mp hkey with rfl | hin
    · rw [hdeadline] at hearly
      cases hearly
      exact hinv.root_le hroot hlate
    · have hne := (Finset.mem_erase.mp (hsub hin)).1
      apply h.first key hin left ?_ deadline later
      · rw [hstores.deadline_of_ne hne, hearly]
      · rw [hstores.deadline_of_ne hstays.1, hlate]
      · rw [hkeys]
        exact Finset.mem_sdiff.mpr
          ⟨Finset.mem_erase.mpr ⟨hstays.1, hleft⟩, hstays.2⟩
  · intro key
    rw [h.stored, hstores.stored, Function.update_apply]
    by_cases hkey : key = e.key
    · simp [hkey]
    · simp [hkey]

theorem reapLoop_reaps (now : UInt64) (works : Nat) (h : db.Inv) :
    ∃ db' removed, reapLoop now works db = some db' ∧ db'.Inv ∧
      Reaps now works db db' removed := by
  induction works generalizing db with
  | zero => exact ⟨db, ∅, rfl, h, .nothing 0 (by simp)⟩
  | succ works ih =>
      cases hhead : db.ttl.items.head? with
      | none =>
          have hnone : db.dueKeys now = ∅ :=
            h.dueKeys_eq_empty (by simp [hhead])
          exact ⟨db, ∅, by simp [reapLoop, hhead], h, .nothing _ (by simp [hnone])⟩
      | some root =>
          by_cases hdue : root.val ≤ now.toNat
          · obtain ⟨e, hholds⟩ := h.root_holds hhead
            obtain ⟨next, hreap, hstores⟩ := reapEntry_stores h hholds
            obtain ⟨db', removed, hloop, hinv, hreaps⟩ := ih hstores.inv
            have hdeadline : db.deadline e.key = some root.val :=
              Database.deadline_eq_some.mpr ⟨e, h.stored_of_holds hholds⟩
            exact ⟨db', insert e.key removed,
              by simp [reapLoop, hhead, hdue, hreap, hloop], hinv,
              hreaps.cons h hstores hhead hdeadline hdue⟩
          · have hnone : db.dueKeys now = ∅ := by
              apply h.dueKeys_eq_empty
              intro other hother
              rw [hhead, Option.some.injEq] at hother
              rw [← hother]
              exact Nat.not_le.mp hdue
            exact ⟨db, ∅, by simp [reapLoop, hhead, hdue], h,
              .nothing _ (by simp [hnone])⟩

theorem Reaps.deadline_of_notMem {works : Nat} {removed : Finset Bytes}
    (h : Reaps now works db db' removed) (hkey : key ∉ removed) :
    db'.deadline key = db.deadline key := by
  rw [Database.deadline, h.stored, if_neg hkey, Database.deadline]

theorem Reaps.dueKeys_eq {works : Nat} {removed : Finset Bytes}
    (h : Reaps now works db db' removed) (hinv : db.Inv) (hinv' : db'.Inv)
    (clock : UInt64) : db'.dueKeys clock = db.dueKeys clock \ removed := by
  ext key
  rw [Finset.mem_sdiff, hinv'.mem_dueKeys, hinv.mem_dueKeys]
  by_cases hkey : key ∈ removed
  · have hnone : db'.deadline key = none := by
      rw [Database.deadline, h.stored, if_pos hkey]
      rfl
    simp [hkey, hnone]
  · simp [hkey, h.deadline_of_notMem hkey]

/-! What a full pass leaves. -/

/-- If a pass leaves keys behind, the earliest of them is not due at the last
time of the clock. -/
def ReapCovered (now : UInt64) (db : Database) : Prop :=
  kMaxWorks < (db.dueKeys now).card →
    now.toNat < uint64Max ∨
      kMaxWorks < (db.dueKeys 18446744073709551614).card

section Left

variable {removed : Finset Bytes}
  (hreaps : Reaps now kMaxWorks db db' removed) (hinv : db.Inv)
  (hinv' : db'.Inv) (hmany : kMaxWorks < (db.dueKeys now).card)
include hreaps hinv hinv' hmany

theorem Reaps.root_due :
    ∃ root, db'.ttl.items.head? = some root ∧ root.val ≤ now.toNat := by
  have hcount := hreaps.count
  rw [min_eq_left hmany.le] at hcount
  obtain ⟨key, hkey, hout⟩ :=
    Finset.exists_mem_notMem_of_card_lt_card (hcount.trans_lt hmany)
  apply hinv'.exists_root
  rw [hreaps.dueKeys_eq hinv hinv']
  exact Finset.mem_sdiff.mpr ⟨hkey, hout⟩

theorem Reaps.root_lt (hcovered : ReapCovered now db) :
    ∃ root, db'.ttl.items.head? = some root ∧ root.val ≤ now.toNat ∧
      root.val < uint64Max := by
  obtain ⟨root, hroot, hdue⟩ := hreaps.root_due hinv hinv' hmany
  refine ⟨root, hroot, hdue, ?_⟩
  rcases hcovered hmany with hnow | hearly
  · exact hdue.trans_lt hnow
  · have hcount := hreaps.count
    rw [min_eq_left hmany.le] at hcount
    obtain ⟨key, hkey, hout⟩ :=
      Finset.exists_mem_notMem_of_card_lt_card (hcount.trans_lt hearly)
    have hleft : key ∈ db'.dueKeys 18446744073709551614 := by
      rw [hreaps.dueKeys_eq hinv hinv']
      exact Finset.mem_sdiff.mpr ⟨hkey, hout⟩
    obtain ⟨other, hother, hle⟩ := hinv'.exists_root hleft
    rw [hroot, Option.some.injEq] at hother
    rw [← hother] at hle
    exact Nat.lt_of_le_of_lt hle (by decide)

/-- A pass that leaves the root due went to the last time of the clock, and what
it left is due then. -/
theorem Reaps.root_last (huncovered : ¬ ReapCovered now db) :
    now.toNat = uint64Max ∧
      ∃ root, db'.ttl.items.head? = some root ∧ root.val = uint64Max := by
  rw [ReapCovered, Classical.not_imp, not_or] at huncovered
  obtain ⟨-, hnow, hfew⟩ := huncovered
  have hrange := now.toNat_lt
  have hlast : now.toNat = uint64Max := by
    unfold uint64Max at hnow ⊢
    omega
  obtain ⟨root, hroot, hdue⟩ := hreaps.root_due hinv hinv' hmany
  refine ⟨hlast, root, hroot, ?_⟩
  by_contra hne
  have hearly : root.val ≤ (18446744073709551614 : UInt64).toNat := by
    have hlt : root.val < uint64Max := by omega
    exact Nat.le_of_lt_succ hlt
  obtain ⟨e, hholds⟩ := hinv'.root_holds hroot
  have hdeadline' : db'.deadline e.key = some root.val :=
    Database.deadline_eq_some.mpr ⟨e, hinv'.stored_of_holds hholds⟩
  have hleft := hinv'.mem_dueKeys.mpr ⟨root.val, hdeadline', hdue⟩
  rw [hreaps.dueKeys_eq hinv hinv'] at hleft
  have hout := (Finset.mem_sdiff.mp hleft).2
  have hdeadline := hdeadline'
  rw [hreaps.deadline_of_notMem hout] at hdeadline
  have hsub : insert e.key removed ⊆ db.dueKeys 18446744073709551614 := by
    intro key hkey
    rcases Finset.mem_insert.mp hkey with rfl | hin
    · exact hinv.mem_dueKeys.mpr ⟨root.val, hdeadline, hearly⟩
    · obtain ⟨early, hkeyed, -⟩ := hinv.mem_dueKeys.mp (hreaps.due hin)
      have hle := hreaps.first key hin e.key hleft early root.val hkeyed hdeadline
      exact hinv.mem_dueKeys.mpr ⟨early, hkeyed, hle.trans hearly⟩
  have hcard := Finset.card_le_card hsub
  rw [Finset.card_insert_of_notMem hout, hreaps.count,
    min_eq_left hmany.le] at hcard
  exact hfew hcard

end Left

/-- Of the keys that are due by an earlier time a pass removes as many as it
may. -/
theorem Reaps.card_dueKeys_le {works : Nat} {removed : Finset Bytes} {time : UInt64}
    (h : Reaps now works db db' removed) (hinv : db.Inv) (hinv' : db'.Inv)
    (hle : time ≤ now) :
    (db'.dueKeys time).card ≤ (db.dueKeys time).card - works := by
  rw [h.dueKeys_eq hinv hinv']
  rcases (db.dueKeys time \ removed).eq_empty_or_nonempty with hnone | ⟨left, hleft⟩
  · rw [hnone, Finset.card_empty]
    exact Nat.zero_le _
  · obtain ⟨hdue, hstays⟩ := Finset.mem_sdiff.mp hleft
    obtain ⟨later, hlater, hearly⟩ := hinv.mem_dueKeys.mp hdue
    have hnow : left ∈ db.dueKeys now := hinv.mem_dueKeys.mpr
      ⟨later, hlater, hearly.trans (UInt64.le_iff_toNat_le.mp hle)⟩
    -- What was removed was due before the key that is left.
    have hsub : removed ⊆ db.dueKeys time := by
      intro key hkey
      obtain ⟨deadline, hdeadline, _⟩ := hinv.mem_dueKeys.mp (h.due hkey)
      have hfirst := h.first key hkey left (Finset.mem_sdiff.mpr ⟨hnow, hstays⟩)
        deadline later hdeadline hlater
      exact hinv.mem_dueKeys.mpr ⟨deadline, hdeadline, hfirst.trans hearly⟩
    have hlt : removed.card < (db.dueKeys now).card :=
      Finset.card_lt_card ((Finset.ssubset_iff_of_subset h.due).mpr
        ⟨left, hnow, hstays⟩)
    have hcount := h.count
    rw [Finset.card_sdiff_of_subset hsub]
    omega

end MiniRedis.Store
