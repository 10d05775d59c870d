import MiniRedis.Store.LoadFactor

namespace MiniRedis.Store

open MiniRedis.Data

variable {α : Type} {hcode : α → UInt64} {hmap hmap' : HMap α}

/-! What rehashing costs over a run.  A single call may pass any number of empty
slots, but the insertions before it have paid for that. -/

def hmMigratePasses (hcode : α → UInt64) : Nat → Nat → HMap α → Nat
  | 0, _, _ => 0
  | fuel + 1, nwork, hmap =>
      if nwork < kRehashingWork ∧ hmap.older.size > 0 then
        match hmMigrateStep hcode hmap with
        | some (hmap, work) => hmMigratePasses hcode fuel (nwork + work) hmap + 1
        | none => 0
      else
        0

def HMapOp.passes (hcode : α → UInt64) (hmap : HMap α) (op : HMapOp α) : Nat :=
  match op.called hcode hmap with
  | some called => hmMigratePasses hcode (hmMigrateFuel called) 0 called
  | none => 0

def HMapOp.inserts : HMapOp α → Nat
  | .insert _ => 1
  | .lookup _ => 0
  | .delete _ => 0

inductive Counted (hcode : α → UInt64) : HMap α → Nat → Nat → Prop
  | empty : Counted hcode {} 0 0
  | tail {hmap hmap' : HMap α} {inserts passes : Nat} (op : HMapOp α)
      (before : Counted hcode hmap inserts passes)
      (applies : op.Applies (hmap.nodes : Multiset α))
      (result : op.run hcode hmap = some hmap') :
      Counted hcode hmap' (inserts + op.inserts) (passes + op.passes hcode hmap)

/-- The nodes and the slots that the running migration has before it. -/
def HMap.workLeft (hmap : HMap α) : Nat :=
  hmap.older.size +
    if hmap.older.tab.isSome then hmap.older.mask + 1 - hmap.migratePos else 0

theorem hmMigrateStep_workLeft (hinv : hmap.Inv hcode)
    (hsize : hmap.older.size > 0) :
    ∃ next work, hmMigrateStep hcode hmap = some (next, work) ∧
      next.Inv hcode ∧ next.workLeft + 1 = hmap.workLeft := by
  obtain ⟨next, work, hstep, -, spec⟩ := hmMigrateStep_spec hinv hsize
  refine ⟨next, work, hstep, spec.inv, ?_⟩
  obtain ⟨tab, htab⟩ := hinv.older.allocated_of_size_pos hsize
  have hcursor := hinv.migratePos_le hsize
  have hmoved := spec.moved
  have hpos := spec.cursor
  rw [HMap.workLeft, HMap.workLeft, if_pos spec.olderAlloc, if_pos (by simp [htab]),
    spec.olderMask]
  omega

theorem hmMigratePasses_workLeft {fuel nwork : Nat} (hinv : hmap.Inv hcode)
    (hloop : hmMigrate hcode fuel nwork hmap = some hmap') :
    hmMigratePasses hcode fuel nwork hmap + hmap'.workLeft = hmap.workLeft := by
  induction fuel generalizing nwork hmap with
  | zero => cases hloop
  | succ fuel ih =>
      rw [hmMigrate] at hloop
      rw [hmMigratePasses]
      split at hloop
      next hguard =>
        obtain ⟨next, work, hstep, hnext, hleft⟩ :=
          hmMigrateStep_workLeft hinv hguard.2
        rw [hstep] at hloop
        have hrest := ih hnext hloop
        rw [if_pos hguard, hstep]
        dsimp only
        omega
      next hguard =>
        cases hloop
        rw [if_neg hguard, Nat.zero_add]

theorem Helped.workLeft {called swept helped : HMap α}
    (h : Helped hcode called swept helped)
    (hinv : called.Inv hcode) :
    hmMigratePasses hcode (hmMigrateFuel called) 0 called + helped.workLeft ≤
      called.workLeft := by
  rw [← hmMigratePasses_workLeft hinv (h.loop _ (Nat.le_refl _))]
  refine Nat.add_le_add_left ?_ _
  by_cases hnil : swept.older.nodes = []
  · rw [h.released hnil]
    exact Nat.zero_le _
  · rw [(h.kept hnil).1]

/-- The account of a run: four coins for each pass and for each that is still
to come, eight for each node above half the load that starts a migration. -/
structure Paid (hmap : HMap α) (inserts passes : Nat) : Prop where
  size : hmSize hmap ≤ inserts
  slots : 4 * (hmap.newer.mask + 1) ≤ inserts + 16
  account : 4 * passes + 4 * hmap.workLeft +
      kMaxLoadFactor * (hmSize hmap - 4 * (hmap.newer.mask + 1)) ≤
    kMaxLoadFactor * inserts + 4 * (hmap.newer.mask + 1)

section Account

variable {inserts passes : Nat} {called helped : HMap α}

theorem Paid.empty : Paid ({} : HMap α) 0 0 :=
  ⟨Nat.le_refl 0, Nat.le_add_left 4 12, Nat.zero_le 4⟩

/-- An insertion pays for itself. The one that starts a migration finds enough
in the account for all its nodes and slots. -/
theorem Paid.linked {node : α} (h : Paid hmap inserts passes)
    (hload : Loaded hmap) (hinv : hmap.Inv hcode)
    (hlinked : Linked hcode hmap node called) (hcalled : called.Inv hcode) :
    Paid called (inserts + 1) passes := by
  have hsize := h.size
  have hslots := h.slots
  have haccount := h.account
  have hlt := hload.lt
  cases hlinked with
  | kept size mask quiet =>
      rename_i newer
      have htotal : hmSize { hmap with newer := newer } = hmSize hmap + 1 := by
        simp only [hmSize, size]
        omega
      have hleft : HMap.workLeft { hmap with newer := newer } = hmap.workLeft := rfl
      have hmask : newer.mask = hmap.newer.mask ∨
          hmap.newer.mask = 0 ∧ newer.mask = 3 :=
        mask.imp_right fun hfirst => ⟨by rw [hfirst.1], hfirst.2⟩
      simp only [kMaxLoadFactor] at haccount
      constructor
      · omega
      · dsimp only
        omega
      · simp only [htotal, hleft, kMaxLoadFactor]
        omega
  | demoted slot chains size full allocated unused double =>
      rename_i newer fresh chain
      have htarget : fresh.mask + 1 = 2 * (newer.mask + 1) :=
        (hcalled.target allocated).2
      have hidle := hinv.older.unallocated full.1
      have hfull := full.2
      have htotal : hmSize { newer := fresh, older := newer } = hmSize hmap + 1 := by
        simp only [hmSize, unused, size, hidle]
        omega
      have hnewer : hmSize hmap = hmap.newer.size := by
        rw [hmSize, hidle]
        rfl
      have hleft : HMap.workLeft { newer := fresh, older := newer } =
          newer.size + (newer.mask + 1) := by
        rw [HMap.workLeft, if_pos allocated]
        rfl
      simp only [kMaxLoadFactor] at haccount hfull hlt
      constructor
      · omega
      · dsimp only
        omega
      · simp only [htotal, hleft, kMaxLoadFactor]
        omega

theorem Paid.help {swept : HMap α} (h : Paid called inserts passes)
    (hinv : called.Inv hcode) (hhelped : Helped hcode called swept helped) :
    Paid helped inserts
      (passes + hmMigratePasses hcode (hmMigrateFuel called) 0 called) := by
  obtain ⟨_, hresult, hinv', hperm, _, hmask, _⟩ := hmHelpRehashing_spec hinv
  rw [hhelped.result] at hresult
  cases hresult
  have htotal : hmSize helped = hmSize called := by
    rw [hinv.hmSize_eq, hinv'.hmSize_eq, hperm.length_eq]
  have hpasses := hhelped.workLeft hinv
  have haccount := h.account
  refine ⟨htotal ▸ h.size, hmask ▸ h.slots, ?_⟩
  rw [htotal, hmask]
  omega

theorem Paid.rest (h : Paid helped inserts passes) (hrest : Rest helped hmap')
    (hinv : helped.Inv hcode) (hinv' : hmap'.Inv hcode) :
    Paid hmap' inserts passes := by
  have hnewer := hrest.newerSize
  have holder := hrest.olderSize
  have htotal : hmSize hmap' ≤ hmSize helped := by
    unfold hmSize
    omega
  have hleft : hmap'.workLeft ≤ helped.workLeft := by
    rw [HMap.workLeft, HMap.workLeft, hrest.cursor, hrest.allocated]
    split
    next halloc =>
      have hdouble := (hinv.target halloc).2
      have hdouble' := (hinv'.target (hrest.allocated ▸ halloc)).2
      rw [hrest.newerMask] at hdouble'
      omega
    next => exact Nat.add_le_add_right holder 0
  have haccount := h.account
  refine ⟨htotal.trans h.size, hrest.newerMask ▸ h.slots, ?_⟩
  simp only [hrest.newerMask, kMaxLoadFactor] at haccount ⊢
  omega

end Account

variable {inserts passes : Nat}

theorem HMapOp.run_inv (op : HMapOp α) (hinv : hmap.Inv hcode)
    (happlies : op.Applies (hmap.nodes : Multiset α))
    (hrun : op.run hcode hmap = some hmap') : hmap'.Inv hcode := by
  cases op with
  | insert node =>
      obtain ⟨_, hinsert, hinv', -⟩ := hmInsert_spec hinv happlies
      rw [HMapOp.run, hinsert] at hrun
      cases hrun
      exact hinv'
  | lookup key =>
      obtain ⟨_, _, hlookup, hinv', -⟩ := hmLookup_spec key hinv
      rw [HMapOp.run, hlookup] at hrun
      cases hrun
      exact hinv'
  | delete key =>
      obtain ⟨_, _, hdelete, hinv', -⟩ := hmDelete_spec key hinv
      rw [HMapOp.run, hdelete] at hrun
      cases hrun
      exact hinv'

theorem Paid.run {op : HMapOp α} (h : Paid hmap inserts passes)
    (hload : Loaded hmap) (hinv : hmap.Inv hcode)
    (happlies : op.Applies (hmap.nodes : Multiset α))
    (hrun : op.run hcode hmap = some hmap') :
    Paid hmap' (inserts + op.inserts) (passes + op.passes hcode hmap) := by
  obtain ⟨called, hcalled, hcalledInv⟩ := hinv.called rfl happlies
  obtain ⟨swept, helped, hhelped, -, hhelpedInv⟩ := hcalledInv.helped
  obtain ⟨_, hrun', hrest⟩ := HMapOp.run_of_helped hinv hcalled hhelped.result
  rw [hrun] at hrun'
  cases hrun'
  have hbefore : Paid called (inserts + op.inserts) passes := by
    cases op with
    | insert node => exact h.linked hload hinv (hinv.linked hcalled) hcalledInv
    | lookup key =>
        cases hcalled
        exact h
    | delete key =>
        cases hcalled
        exact h
  rw [HMapOp.passes, hcalled]
  exact (hbefore.help hcalledInv hhelped).rest hrest hhelpedInv
    (op.run_inv hinv happlies hrun)

theorem Counted.paid (h : Counted hcode hmap inserts passes) :
    hmap.Inv hcode ∧ Loaded hmap ∧ Paid hmap inserts passes := by
  induction h with
  | empty => exact ⟨.empty, .empty, .empty⟩
  | tail op _ applies result ih =>
      obtain ⟨hinv, hload, hpaid⟩ := ih
      exact ⟨op.run_inv hinv applies result, hload.run hinv rfl applies result,
        hpaid.run hload hinv applies result⟩

theorem counted_insertions {hcode : Nat → UInt64} {n passes : Nat}
    {hmap : HMap Nat}
    (h : (List.range n).foldlM (fun (state : HMap Nat × Nat) node =>
      (hmInsert hcode state.1 node).map
        (·, state.2 + (HMapOp.insert node).passes hcode state.1)) ({}, 0) =
      some (hmap, passes)) :
    Counted hcode hmap n passes ∧ (hmap.nodes : Multiset Nat) = .range n := by
  induction n generalizing hmap passes with
  | zero =>
      cases h
      exact ⟨.empty, rfl⟩
  | succ n ih =>
      obtain ⟨⟨before, spent⟩, hbefore, hlast⟩ := foldlM_range_succ h
      obtain ⟨_, hinsert, heq⟩ := Option.map_eq_some_iff.mp hlast
      cases heq
      obtain ⟨hcounted, hnodes⟩ := ih hbefore
      have hfresh : n ∉ before.nodes := by
        rw [← Multiset.mem_coe, hnodes]
        exact Multiset.notMem_range_self
      obtain ⟨_, hresult, -, hperm⟩ := hmInsert_spec hcounted.paid.1 hfresh
      rw [hinsert] at hresult
      cases hresult
      refine ⟨.tail (.insert n) hcounted hfresh hinsert, ?_⟩
      rw [Multiset.range_succ, ← hnodes]
      exact Multiset.coe_eq_coe.mpr hperm

/-- Over every run the loop makes at most nine passes for four insertions,
together with the passes that the running migration still needs. Lookups and
deletions are free. -/
theorem rehashing_amortized (h : Counted hcode hmap inserts passes) :
    4 * (passes + hmap.workLeft) ≤ 9 * inserts + 16 := by
  obtain ⟨-, -, hpaid⟩ := h.paid
  have hslots := hpaid.slots
  have haccount := hpaid.account
  simp only [kMaxLoadFactor] at haccount
  omega

theorem rehashing_amortized_insertions : ∃ (hmap : HMap Nat) (passes : Nat),
    Counted (fun n => UInt64.ofNat n) hmap 32 passes ∧ 32 ≤ passes ∧
      4 * (passes + hmap.workLeft) ≤ 9 * 32 + 16 := by
  have heval : ((List.range 32).foldlM (fun (state : HMap Nat × Nat) node =>
      (hmInsert (fun n => UInt64.ofNat n) state.1 node).map
        (·, state.2 + (HMapOp.insert node).passes (fun n => UInt64.ofNat n)
          state.1)) ({}, 0)).map (fun state => decide (32 ≤ state.2)) =
      some true := by
    decide +kernel
  obtain ⟨⟨hmap, passes⟩, hruns, hpasses⟩ := Option.map_eq_some_iff.mp heval
  obtain ⟨hcounted, -⟩ := counted_insertions hruns
  exact ⟨hmap, passes, hcounted, of_decide_eq_true hpasses,
    rehashing_amortized hcounted⟩

end MiniRedis.Store
