import MiniRedis.Store.LoadFactor

namespace MiniRedis.Store

open MiniRedis.Data

variable {α : Type} {hcode : α → UInt64} {hmap hmap' : HMap α}

/-! How far one call moves the cursor.  The loop counts the nodes it moves and
not the empty slots it passes. -/

/-- The cursor stops in the slot that holds the last node the budget pays
for. -/
theorem hmMigrate_cursor {fuel nwork : Nat} (hinv : hmap.Inv hcode)
    (hloop : hmMigrate hcode fuel nwork hmap = some hmap')
    (hleft : hmap'.older.nodes ≠ []) :
    hmap.migratePos ≤ hmap'.migratePos ∧
      ∀ slots, hmap'.migratePos ≤ hmap.migratePos + slots ↔
        kRehashingWork - nwork ≤
          (hmap.pending.take (slots + 1)).flatten.length := by
  refine hmMigrate_induct (motive := fun nwork hmap =>
    hmap.migratePos ≤ hmap'.migratePos ∧
      ∀ slots, hmap'.migratePos ≤ hmap.migratePos + slots ↔
        kRehashingWork - nwork ≤
          (hmap.pending.take (slots + 1)).flatten.length) hinv hloop ?_ ?_ ?_
  · intro nwork hinv' hguard
    -- A loop that leaves a node in the table has used up its budget.
    have hspent : kRehashingWork ≤ nwork := by
      by_contra hlt
      apply hguard
      refine ⟨Nat.lt_of_not_le hlt, ?_⟩
      rw [hinv'.older.counted]
      exact List.length_pos_of_ne_nil hleft
    refine ⟨Nat.le_refl _, fun slots => ?_⟩
    omega
  · rintro nwork hmap next hlt hpos hpending ⟨hmono, hcursor⟩
    rw [hpos] at hmono hcursor
    refine ⟨by omega, fun slots => ?_⟩
    rw [hpending, List.take_succ_cons, List.flatten_cons, List.nil_append]
    cases slots with
    | zero =>
        simp only [List.take_zero, List.flatten_nil, List.length_nil]
        omega
    | succ slots =>
        rw [show hmap.migratePos + (slots + 1) =
          hmap.migratePos + 1 + slots by omega]
        exact hcursor slots
  · rintro nwork hmap next node chain rest _ hpos hpending hafter
      ⟨hmono, hcursor⟩
    rw [hpos] at hmono hcursor
    refine ⟨hmono, fun slots => ?_⟩
    rw [hcursor, hafter, hpending]
    simp only [List.take_succ_cons, List.flatten_cons, List.length_append,
      List.length_cons]
    omega

/-! The table a call migrates, read off the map before the operation. -/

def HMapOp.start (hmap : HMap α) (op : HMapOp α) : Nat :=
  if op.Triggers hmap then 0 else hmap.migratePos

def HMapOp.left (hmap : HMap α) (op : HMapOp α) : Nat :=
  if op.Triggers hmap then hmap.newer.size + 1 else hmap.older.size

/-- The nodes left to move in the first `slots` slots from the cursor. -/
def HMapOp.ahead (hcode : α → UInt64) (hmap : HMap α) (slots : Nat)
    (op : HMapOp α) : Nat :=
  match op with
  | .insert node =>
      if (HMapOp.insert node).Triggers hmap then
        (hmap.newer.chains.take slots).flatten.length +
          (if slotOf (hcode node) hmap.newer.mask < slots then 1 else 0)
      else
        (hmap.pending.take slots).flatten.length
  | .lookup _ => (hmap.pending.take slots).flatten.length
  | .delete _ => (hmap.pending.take slots).flatten.length

theorem length_take_set_cons {slots : List (List α)} {index : Nat}
    {chain : List α} (item : α) (h : slots[index]? = some chain) (n : Nat) :
    ((slots.set index (item :: chain)).take n).flatten.length =
      (slots.take n).flatten.length + (if index < n then 1 else 0) := by
  rw [List.take_set]
  split
  · next hlt =>
    have hslot : (slots.take n)[index]? = some chain := by
      rw [List.getElem?_take, if_pos hlt, h]
    rw [(flatten_set_cons_perm item hslot).length_eq, List.length_cons]
  · next hge =>
    rw [List.set_eq_of_length_le (by rw [List.length_take]; omega),
      Nat.add_zero]

structure Foreseen (hcode : α → UInt64) (hmap : HMap α) (op : HMapOp α)
    (called : HMap α) : Prop where
  start : called.migratePos = op.start hmap
  left : called.older.size = op.left hmap
  ahead : ∀ slots,
    (called.pending.take slots).flatten.length = op.ahead hcode hmap slots

theorem Foreseen.idle {op : HMapOp α} (hquiet : ¬ op.Triggers hmap)
    {called : HMap α} (holder : called.older = hmap.older)
    (hcursor : called.migratePos = hmap.migratePos) :
    Foreseen hcode hmap op called where
  start := by rw [HMapOp.start, if_neg hquiet, hcursor]
  left := by rw [HMapOp.left, if_neg hquiet, holder]
  ahead := by
    intro slots
    rw [HMap.pending, holder, hcursor]
    cases op with
    | insert node => rw [HMapOp.ahead, if_neg hquiet, HMap.pending]
    | lookup key => rfl
    | delete key => rfl

theorem HMap.Inv.foreseen {op : HMapOp α} {called : HMap α}
    (hinv : hmap.Inv hcode) (hcalled : op.called hcode hmap = some called) :
    Foreseen hcode hmap op called := by
  cases op with
  | insert node =>
      cases hinv.linked hcalled with
      | kept size mask quiet => exact Foreseen.idle quiet rfl rfl
      | demoted slot chains size full allocated unused double =>
          refine ⟨by rw [HMapOp.start, if_pos full],
            by rw [HMapOp.left, if_pos full, size], fun slots => ?_⟩
          rw [HMap.pending, List.drop_zero, chains, HMapOp.ahead, if_pos full]
          exact length_take_set_cons node slot slots
  | lookup key =>
      cases hcalled
      exact Foreseen.idle id rfl rfl
  | delete key =>
      cases hcalled
      exact Foreseen.idle id rfl rfl

theorem Helped.cursor {op : HMapOp α} {called swept helped : HMap α}
    (hhelped : Helped hcode called swept helped) (hinv : called.Inv hcode)
    (hforeseen : Foreseen hcode hmap op called)
    (hkept : helped.older.tab.isSome) (slots : Nat) :
    helped.migratePos ≤ op.start hmap + slots ↔
      kRehashingWork ≤ op.ahead hcode hmap (slots + 1) := by
  have hleft := hhelped.allocated_iff.mp hkept
  have hcursor := (hmMigrate_cursor hinv
    (hhelped.loop (hmMigrateFuel called) (Nat.le_refl _)) hleft).2 slots
  rw [hforeseen.start, hforeseen.ahead] at hcursor
  rw [hhelped.migratePos]
  exact hcursor

theorem Helped.moved {called swept helped : HMap α}
    (hhelped : Helped hcode called swept helped) (hinv : called.Inv hcode) :
    ∃ moved, moved.length ≤ kRehashingWork ∧
      called.older.nodes = moved ++ helped.older.nodes ∧
      helped.newer.nodes.Perm (moved ++ called.newer.nodes) := by
  obtain ⟨moved, hlength, hnodes⟩ := hmMigrate_moved hinv
    (hhelped.loop (hmMigrateFuel called) (Nat.le_refl _))
  have hsame : helped.older.nodes = swept.older.nodes := by
    by_cases hnil : swept.older.nodes = []
    · rw [hhelped.released hnil, hnil]
      rfl
    · rw [(hhelped.kept hnil).1]
  rw [← hsame] at hnodes
  refine ⟨moved, hlength, hnodes, ?_⟩
  obtain ⟨_, hresult, _, hperm, _⟩ := hmHelpRehashing_spec hinv
  rw [hhelped.result] at hresult
  cases hresult
  rw [HMap.nodes, HMap.nodes, hnodes, ← List.append_assoc,
    List.perm_append_right_iff] at hperm
  exact hperm.trans List.perm_append_comm

theorem Helped.finishes {op : HMapOp α} {called swept helped : HMap α}
    (hhelped : Helped hcode called swept helped) (hinv : called.Inv hcode)
    (hforeseen : Foreseen hcode hmap op called) :
    helped.older.tab = none ↔ op.left hmap ≤ kRehashingWork := by
  obtain ⟨_, hresult, _, _, _, _, hsize, halloc⟩ := hmHelpRehashing_spec hinv
  rw [hhelped.result] at hresult
  cases hresult
  rw [hforeseen.left] at hsize
  rw [← Option.not_isSome_iff_eq_none, halloc]
  omega

theorem Helped.idle {called swept helped : HMap α}
    (hhelped : Helped hcode called swept helped) (hinv : called.Inv hcode)
    (hidle : called.older.tab = none) :
    helped.migratePos = called.migratePos := by
  have hloop := hhelped.loop (hmMigrateFuel called) (Nat.le_refl _)
  rw [hmMigrateFuel, hmMigrate, hinv.older.unallocated hidle,
    if_neg (by simp)] at hloop
  cases hloop
  exact hhelped.migratePos

theorem Linked.capacity {node : α} {called : HMap α}
    (hlinked : Linked hcode hmap node called)
    (hquiet : ¬ (HMapOp.insert node).Triggers hmap) :
    called.newer.mask + 1 ≤ max 4 (hmap.newer.mask + 1) := by
  cases hlinked with
  | kept size mask quiet =>
      rcases mask with hmask | ⟨_, hmask⟩
      · simp only [hmask]
        omega
      · simp only [hmask]
        omega
  | demoted slot chains size full allocated unused double =>
      exact absurd full hquiet

theorem Linked.double {node : α} {called : HMap α}
    (hlinked : Linked hcode hmap node called)
    (hfull : (HMapOp.insert node).Triggers hmap) :
    called.newer.mask + 1 = (hmap.newer.mask + 1) * 2 := by
  cases hlinked with
  | kept size mask quiet => exact absurd hfull quiet
  | demoted slot chains size full allocated unused double => exact double

/-! Every operation of a run. -/

variable [DecidableEq α]

/-- One operation never moves more than `k_rehashing_work` nodes.  It passes
at most as many slots exactly when it ends the migration or finds that many
nodes close ahead of the cursor. -/
theorem migration_step_bounded_iff {stored : Multiset α}
    (hreach : HMapReachable hcode hmap stored) (op : HMapOp α)
    (happlies : op.Applies stored) :
    ∃ called helped hmap', op.called hcode hmap = some called ∧
      hmHelpRehashing hcode called = some helped ∧
      op.run hcode hmap = some hmap' ∧
      (∃ moved, moved.length ≤ 128 ∧
        called.older.nodes = moved ++ helped.older.nodes ∧
        helped.newer.nodes.Perm (moved ++ called.newer.nodes)) ∧
      ((called.older.tab.isSome ∧ hmap'.older.tab = none) ∨
          hmap'.migratePos ≤ op.start hmap + 128 ↔
        op.left hmap ≤ 128 ∨ 128 ≤ op.ahead hcode hmap 129) := by
  obtain ⟨hinv, hstored⟩ := hreach.tracks
  dsimp only at hinv hstored
  obtain ⟨called, hcalled, hcalledInv⟩ := hinv.called hstored happlies
  obtain ⟨swept, helped, hhelped, _⟩ := hcalledInv.helped
  obtain ⟨hmap', hrun, hrest⟩ :=
    HMapOp.run_of_helped hinv hcalled hhelped.result
  have hforeseen := hinv.foreseen hcalled
  refine ⟨called, helped, hmap', hcalled, hhelped.result, hrun,
    hhelped.moved hcalledInv, ?_⟩
  have hfinishes : hmap'.older.tab = none ↔ op.left hmap ≤ 128 := by
    rw [← Option.not_isSome_iff_eq_none, hrest.allocated,
      Option.not_isSome_iff_eq_none]
    exact hhelped.finishes hcalledInv hforeseen
  rw [hrest.cursor, hfinishes]
  by_cases hends : op.left hmap ≤ 128
  · refine iff_of_true ?_ (.inl hends)
    cases htab : called.older.tab with
    | none =>
        right
        rw [hhelped.idle hcalledInv htab, hforeseen.start]
        exact Nat.le_add_right _ _
    | some tab => exact .inl ⟨rfl, hends⟩
  · have hkept : helped.older.tab.isSome := by
      rw [← hrest.allocated, Option.isSome_iff_ne_none]
      exact fun hnone => hends (hfinishes.mp hnone)
    have hcursor := hhelped.cursor hcalledInv hforeseen hkept 128
    simp only [hends, and_false, false_or]
    exact hcursor

theorem migration_step_bounded_iff_migrating : ∃ hmap helped hmap' : HMap Nat,
    hmap.older.size = 128 ∧ hmap.migratePos = 15 ∧
    hmHelpRehashing (fun n => UInt64.ofNat n) hmap = some helped ∧
    (HMapOp.lookup ⟨200, (· == 200)⟩).run (fun n => UInt64.ofNat n) hmap =
      some hmap' ∧
    (∃ moved, moved.length ≤ 128 ∧
      hmap.older.nodes = moved ++ helped.older.nodes ∧
      helped.newer.nodes.Perm (moved ++ hmap.newer.nodes)) ∧
    (hmap'.older.tab = none ∨ hmap'.migratePos ≤ 15 + 128) := by
  obtain ⟨hmap, hreach, -, holder, -, hcursor⟩ := exists_migrating
  obtain ⟨_, helped, hmap', hcalled, hhelped, hrun, hmoved, hiff⟩ :=
    migration_step_bounded_iff hreach (.lookup ⟨200, (· == 200)⟩) trivial
  cases hcalled
  refine ⟨hmap, helped, hmap', holder, hcursor, hhelped, hrun, hmoved, ?_⟩
  have hends := hiff.mpr (.inl (Nat.le_of_eq holder))
  rw [show HMapOp.start hmap _ = hmap.migratePos from rfl, hcursor] at hends
  exact hends.imp_left And.right

/-! A migration of every capacity is started by some run of insertions. -/

/-- The next insertion of a run `0, 1, ..` starts a migration of a table with
`2 ^ k` slots. -/
def Starts (hcode : Nat → UInt64) (k : Nat) : Prop :=
  ∃ hmap n, HMapReachable hcode hmap (Multiset.range n) ∧
    hmap.newer.mask + 1 = 2 ^ k ∧ (HMapOp.insert n).Triggers hmap

theorem reach_or_starts (hcode : Nat → UInt64) {k : Nat} (hk : 2 ≤ k)
    (n : Nat) :
    (∃ hmap, HMapReachable hcode hmap (Multiset.range n) ∧
      hmap.newer.mask + 1 ≤ 2 ^ k) ∨ Starts hcode k := by
  induction n with
  | zero =>
      left
      exact ⟨{}, Relation.ReflTransGen.refl, Nat.one_le_two_pow⟩
  | succ n ih =>
      rcases ih with ⟨hmap, hreach, hcap⟩ | hstarts
      · obtain ⟨hinv, hstored⟩ := hreach.tracks
        dsimp only at hinv hstored
        have hfresh : n ∉ Multiset.range n := Multiset.notMem_range_self
        have happlies : (HMapOp.insert n).Applies (Multiset.range n) := hfresh
        obtain ⟨called, hcalled, hcalledInv⟩ := hinv.called hstored happlies
        obtain ⟨helped, hresult, _, _, _, hmask, _⟩ :=
          hmHelpRehashing_spec hcalledInv
        have hinsert : hmInsert hcode hmap n = some helped := by
          rw [hmInsert_eq_called, hcalled, Option.bind_some, hresult]
        have hnext : HMapReachable hcode helped (Multiset.range (n + 1)) := by
          rw [Multiset.range_succ]
          exact Relation.ReflTransGen.tail hreach (.insert n hfresh hinsert)
        have hlinked := hinv.linked hcalled
        by_cases hfull : (HMapOp.insert n).Triggers hmap
        · by_cases hat : hmap.newer.mask + 1 = 2 ^ k
          · exact .inr ⟨hmap, n, hreach, hat, hfull⟩
          · left
            refine ⟨helped, hnext, ?_⟩
            obtain ⟨j, hj⟩ := hinv.newer.power
            have hlt : j < k := by
              rw [hj] at hcap hat
              exact (Nat.pow_lt_pow_iff_right (by decide)).mp
                (Nat.lt_of_le_of_ne hcap hat)
            have hdouble := hlinked.double hfull
            rw [hmask, hdouble, hj, ← pow_succ]
            exact Nat.pow_le_pow_right (by decide) hlt
        · left
          refine ⟨helped, hnext, ?_⟩
          have hfour : 2 ^ 2 ≤ 2 ^ k := Nat.pow_le_pow_right (by decide) hk
          have hbound := hlinked.capacity hfull
          rw [hmask]
          omega
      · exact .inr hstarts

theorem starts (hcode : Nat → UInt64) {k : Nat} (hk : 2 ≤ k) :
    Starts hcode k := by
  rcases reach_or_starts hcode hk (8 * 2 ^ k) with
    ⟨hmap, hreach, hcap⟩ | hstarts
  · have hlt := hreach.loaded.lt
    obtain ⟨hinv, hstored⟩ := hreach.tracks
    dsimp only at hinv hstored
    have hsize : hmSize hmap = 8 * 2 ^ k := by
      rw [hinv.hmSize_eq, ← Multiset.coe_card, hstored, Multiset.card_range]
    have hscaled := Nat.mul_le_mul_left 8 hcap
    simp only [hsize, kMaxLoadFactor] at hlt
    omega
  · exact hstarts

/-- With every node in the last of 256 slots, the insertion that starts the
migration passes the other 255 in one call. -/
theorem migration_step_unbounded :
    ∃ (hmap hmap' : HMap Nat) (stored : Multiset Nat) (node : Nat),
      HMapReachable (fun _ => 0xFFFFFFFFFFFFFFFF) hmap stored ∧
      node ∉ stored ∧ hmap.older.tab = none ∧
      hmInsert (fun _ => 0xFFFFFFFFFFFFFFFF) hmap node = some hmap' ∧
      hmap'.older.tab.isSome ∧ 255 ≤ hmap'.migratePos := by
  obtain ⟨hmap, n, hreach, hcap, hfull⟩ :=
    starts (fun _ => 0xFFFFFFFFFFFFFFFF) (by decide : 2 ≤ 8)
  obtain ⟨hinv, hstored⟩ := hreach.tracks
  dsimp only at hinv hstored
  have hfresh : n ∉ Multiset.range n := Multiset.notMem_range_self
  have happlies : (HMapOp.insert n).Applies (Multiset.range n) := hfresh
  obtain ⟨called, hcalled, hcalledInv⟩ := hinv.called hstored happlies
  obtain ⟨swept, helped, hhelped, _, hhelpedInv⟩ := hcalledInv.helped
  have hforeseen := hinv.foreseen hcalled
  have hinsert : hmInsert (fun _ => 0xFFFFFFFFFFFFFFFF) hmap n =
      some helped := by
    rw [hmInsert_eq_called, hcalled, Option.bind_some, hhelped.result]
  have hmask : hmap.newer.mask = 255 := by omega
  have hkept : helped.older.tab.isSome := by
    rw [Option.isSome_iff_ne_none]
    intro hnone
    have hleft := (hhelped.finishes hcalledInv hforeseen).mp hnone
    have hnodes := hfull.2
    rw [HMapOp.left, if_pos hfull] at hleft
    simp only [kRehashingWork, kMaxLoadFactor, hmask] at hleft hnodes
    omega
  have hlast : slotOf 0xFFFFFFFFFFFFFFFF hmap.newer.mask = 255 := by
    rw [hmask]
    decide
  have hempty : (hmap.newer.chains.take 255).flatten = [] := by
    rw [List.flatten_eq_nil_iff]
    intro chain hchain
    obtain ⟨i, hi⟩ := List.getElem?_of_mem hchain
    rw [List.getElem?_take] at hi
    split at hi
    · next hlt =>
      rw [List.eq_nil_iff_forall_not_mem]
      intro node hnode
      have hplaced := hinv.newer.placed i chain hi node hnode
      omega
    · cases hi
  have hahead : (HMapOp.insert n).ahead (fun _ => 0xFFFFFFFFFFFFFFFF) hmap
      255 = 0 := by
    rw [HMapOp.ahead, if_pos hfull, hempty, hlast]
    rfl
  have hcursor := hhelped.cursor hcalledInv hforeseen hkept 254
  rw [HMapOp.start, if_pos hfull, hahead, Nat.zero_add] at hcursor
  refine ⟨hmap, helped, Multiset.range n, n, hreach, hfresh, hfull.1, hinsert,
    hkept, ?_⟩
  by_contra hshort
  exact absurd (hcursor.mp (by omega)) (by decide)

end MiniRedis.Store
