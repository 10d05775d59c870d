import MiniRedis.Store.Migration

namespace MiniRedis.Store

open MiniRedis.Data

variable {α : Type} {hcode : α → UInt64} {hmap hmap' : HMap α}

/-! The load of a map between operations.  A migration starts with
`k_max_load_factor` nodes for each slot of its table, and every insertion after
that adds one node and moves `k_rehashing_work`.  So `k_rehashing_work` times
the size plus the nodes still to move does not grow. -/

structure Loaded (hmap : HMap α) : Prop where
  idle : hmap.older.tab = none →
    hmSize hmap < kMaxLoadFactor * (hmap.newer.mask + 1)
  migrating : hmap.older.tab.isSome →
    2 * (kRehashingWork * (hmSize hmap + 1) + hmap.older.size) ≤
      (kRehashingWork + 1) * (kMaxLoadFactor * (hmap.newer.mask + 1))

/-- The load when `hm_help_rehashing` is called: its work is still owed. -/
structure Owing (called : HMap α) : Prop where
  idle : called.older.tab = none →
    hmSize called < kMaxLoadFactor * (called.newer.mask + 1)
  migrating : called.older.tab.isSome →
    2 * (kRehashingWork * hmSize called + called.older.size) ≤
      (kRehashingWork + 1) * (kMaxLoadFactor * (called.newer.mask + 1))

theorem Loaded.empty : Loaded ({} : HMap α) :=
  ⟨fun _ => by simp [hmSize, kMaxLoadFactor], by simp⟩

theorem Loaded.owing (hload : Loaded hmap) : Owing hmap where
  idle := hload.idle
  migrating := by
    intro halloc
    have hpaid := hload.migrating halloc
    rw [Nat.mul_succ] at hpaid
    omega

theorem Loaded.lt (hload : Loaded hmap) :
    hmSize hmap < kMaxLoadFactor * (hmap.newer.mask + 1) := by
  cases htab : hmap.older.tab with
  | none => exact hload.idle htab
  | some tab =>
      have hpaid := hload.migrating (by simp [htab])
      simp only [kRehashingWork, kMaxLoadFactor] at hpaid ⊢
      omega

/-- While a migration runs, one more insertion stays below the threshold whose
check it skips. -/
theorem Loaded.succ_lt (hload : Loaded hmap)
    (halloc : hmap.older.tab.isSome) :
    hmSize hmap + 1 < kMaxLoadFactor * (hmap.newer.mask + 1) := by
  have hpaid := hload.migrating halloc
  simp only [kRehashingWork, kMaxLoadFactor] at hpaid ⊢
  omega

theorem Owing.help {called helped : HMap α} (howing : Owing called)
    (hinv : called.Inv hcode)
    (hresult : hmHelpRehashing hcode called = some helped) :
    Loaded helped := by
  obtain ⟨_, hresult', hinv', hperm, _, hmask, hsize, halloc⟩ :=
    hmHelpRehashing_spec hinv
  rw [hresult] at hresult'
  cases hresult'
  have htotal : hmSize helped = hmSize called := by
    rw [hinv.hmSize_eq, hinv'.hmSize_eq, hperm.length_eq]
  constructor
  · intro hidle
    rw [htotal, hmask]
    cases htab : called.older.tab with
    | none => exact howing.idle htab
    | some tab =>
        have howed := howing.migrating (by simp [htab])
        simp only [kRehashingWork, kMaxLoadFactor] at howed ⊢
        omega
  · intro hsome
    have hleft := halloc.mp hsome
    have hcalled : called.older.tab.isSome := by
      obtain ⟨tab, htab⟩ :=
        hinv.older.allocated_of_size_pos (by omega : called.older.size > 0)
      simp [htab]
    have howed := howing.migrating hcalled
    rw [htotal, hmask, Nat.mul_succ]
    omega

theorem Loaded.rest {helped : HMap α} (hload : Loaded helped)
    (hrest : Rest helped hmap') : Loaded hmap' := by
  have hnewer := hrest.newerSize
  have holder := hrest.olderSize
  have htotal : hmSize hmap' ≤ hmSize helped := by
    unfold hmSize
    omega
  constructor
  · intro hidle
    have hnone : helped.older.tab = none := by
      rw [← Option.not_isSome_iff_eq_none, ← hrest.allocated, hidle]
      simp
    rw [hrest.newerMask]
    exact htotal.trans_lt (hload.idle hnone)
  · intro hsome
    have hpaid := hload.migrating (hrest.allocated ▸ hsome)
    have hscaled :=
      Nat.mul_le_mul_left kRehashingWork (Nat.add_le_add_right htotal 1)
    rw [hrest.newerMask]
    omega

/-- An insertion uses up what one call pays, and the one that reaches the
threshold starts a migration of exactly that many nodes. -/
theorem Loaded.linked {node : α} {called : HMap α} (hload : Loaded hmap)
    (hinv : hmap.Inv hcode) (hlinked : Linked hcode hmap node called) :
    Owing called := by
  cases hlinked with
  | kept size mask quiet =>
      rename_i newer
      have htotal : hmSize { hmap with newer := newer } = hmSize hmap + 1 := by
        simp only [hmSize, size]
        omega
      constructor
      · intro hidle
        have hempty : hmap.older.size = 0 := by
          rw [hinv.older.unallocated hidle]
        have hbelow := mt (And.intro hidle) quiet
        rw [htotal, hmSize, hempty]
        rcases mask with hmask | ⟨hunused, hmask⟩
        · simp only [hmask, Nat.mul_comm kMaxLoadFactor]
          omega
        · simp [hunused, hmask, kMaxLoadFactor]
      · intro hsome
        have hpaid := hload.migrating hsome
        rcases mask with hmask | ⟨hunused, _⟩
        · rw [htotal]
          simpa [hmask] using hpaid
        · have htarget := (hinv.target hsome).1
          simp [hunused] at htarget
  | demoted slot chains size full allocated unused double =>
      have hlt := hload.lt
      refine ⟨fun hnone => ?_, fun _ => ?_⟩
      · simp only at hnone
        simp [hnone] at allocated
      · simp only [hmSize, unused, double, size]
        simp only [hmSize, kRehashingWork, kMaxLoadFactor] at hlt ⊢
        omega

theorem Loaded.run {stored : Multiset α} {op : HMapOp α}
    (hload : Loaded hmap) (hinv : hmap.Inv hcode)
    (hstored : (hmap.nodes : Multiset α) = stored)
    (happlies : op.Applies stored) (hrun : op.run hcode hmap = some hmap') :
    Loaded hmap' := by
  obtain ⟨called, hcalled, hcalledInv⟩ := hinv.called hstored happlies
  obtain ⟨swept, helped, hhelped, _⟩ := hcalledInv.helped
  obtain ⟨_, hrun', hrest⟩ :=
    HMapOp.run_of_helped hinv hcalled hhelped.result
  rw [hrun] at hrun'
  cases hrun'
  have howing : Owing called := by
    cases op with
    | insert node =>
        exact hload.linked hinv (hinv.linked hcalled)
    | lookup key =>
        cases hcalled
        exact hload.owing
    | delete key =>
        cases hcalled
        exact hload.owing
  exact (howing.help hcalledInv hhelped.result).rest hrest

variable [DecidableEq α]

theorem HMapStep.exists_op {state state' : HMap α × Multiset α}
    (hstep : HMapStep hcode state state') :
    ∃ op : HMapOp α, op.Applies state.2 ∧
      op.run hcode state.1 = some state'.1 := by
  cases hstep with
  | insert node fresh result => exact ⟨.insert node, fresh, result⟩
  | lookup key result =>
      exact ⟨.lookup key, trivial, by simp [HMapOp.run, result]⟩
  | delete key result =>
      exact ⟨.delete key, trivial, by simp [HMapOp.run, result]⟩

theorem HMapReachable.loaded {stored : Multiset α}
    (hreach : HMapReachable hcode hmap stored) : Loaded hmap := by
  have hall : ∀ state, Relation.ReflTransGen (HMapStep hcode) ({}, 0) state →
      Loaded state.1 := by
    intro state hrun
    induction hrun with
    | refl => exact Loaded.empty
    | tail hbefore hstep ih =>
        obtain ⟨op, happlies, hresult⟩ := hstep.exists_op
        obtain ⟨hinv, hstored⟩ := HMapReachable.tracks hbefore
        exact ih.run hinv hstored happlies hresult
  exact hall (hmap, stored) hreach

/-- Skipping the load check during a migration never lets a table outgrow its
load factor. -/
theorem hmap_load_bound {stored : Multiset α}
    (hreach : HMapReachable hcode hmap stored) :
    hmSize hmap < 8 * (hmap.newer.mask + 1) ∧
    (hmap.older.tab.isSome →
      hmSize hmap + 1 < 8 * (hmap.newer.mask + 1) ∧
      hmap.newer.mask + 1 = 2 * (hmap.older.mask + 1)) ∧
    (∃ k, hmap.newer.mask + 1 = 2 ^ k) ∧
    (∃ k, hmap.older.mask + 1 = 2 ^ k) := by
  have hload := hreach.loaded
  have hinv := hreach.tracks.1
  exact ⟨hload.lt,
    fun halloc => ⟨hload.succ_lt halloc, (hinv.target halloc).2⟩,
    hinv.newer.power, hinv.older.power⟩

theorem hmap_load_bound_migrating : ∃ hmap : HMap Nat,
    HMapReachable (fun n => UInt64.ofNat n) hmap (Multiset.range 256) ∧
    hmap.older.size = 128 ∧ hmSize hmap + 1 < 8 * (hmap.newer.mask + 1) ∧
    hmap.newer.mask + 1 = 2 * (hmap.older.mask + 1) := by
  obtain ⟨hmap, hreach, -, holder, halloc, -⟩ := exists_migrating
  exact ⟨hmap, hreach, holder, (hmap_load_bound hreach).2.1 halloc⟩

end MiniRedis.Store
