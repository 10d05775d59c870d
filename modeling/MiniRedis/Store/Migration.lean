import MiniRedis.Store.HashMapRuns

namespace MiniRedis.Store

open MiniRedis.Data

variable {α : Type} {hcode : α → UInt64} {hmap hmap' : HMap α}

/-! The migration loop of `hm_help_rehashing`, pass by pass. -/

def HMap.pending (hmap : HMap α) : List (List α) :=
  hmap.older.chains.drop hmap.migratePos

theorem HMap.Inv.pending_flatten (hinv : hmap.Inv hcode) :
    hmap.pending.flatten = hmap.older.nodes := by
  have hpassed : (hmap.older.chains.take hmap.migratePos).flatten = [] := by
    rw [List.flatten_eq_nil_iff]
    intro chain hchain
    obtain ⟨i, hi⟩ := List.getElem?_of_mem hchain
    rw [List.getElem?_take] at hi
    split at hi
    · next hlt => exact hinv.swept i chain hlt hi
    · cases hi
  calc
    hmap.pending.flatten =
        (hmap.older.chains.take hmap.migratePos).flatten ++
          hmap.pending.flatten := by rw [hpassed, List.nil_append]
    _ = hmap.older.nodes := by
        rw [HMap.pending, ← List.flatten_append, List.take_append_drop]
        rfl

theorem HMap.Inv.pending_count (hinv : hmap.Inv hcode) :
    hmap.older.size = hmap.pending.flatten.length := by
  rw [hinv.pending_flatten, hinv.older.counted]

inductive MigratePass (hcode : α → UInt64) :
    HMap α × Nat → HMap α × Nat → Prop
  | pass {hmap hmap' : HMap α} {nwork work : Nat}
      (budget : nwork < kRehashingWork) (left : hmap.older.size > 0)
      (body : hmMigrateStep hcode hmap = some (hmap', work)) :
      MigratePass hcode (hmap, nwork) (hmap', nwork + work)

theorem MigratePass.inv {state state' : HMap α × Nat}
    (hpass : MigratePass hcode state state') (hinv : state.1.Inv hcode) :
    state'.1.Inv hcode := by
  cases hpass with
  | pass budget left body =>
      obtain ⟨_, _, hstep, _, spec⟩ := hmMigrateStep_spec hinv left
      rw [body] at hstep
      cases hstep
      exact spec.inv

theorem MigratePass.inv_of_run {state state' : HMap α × Nat}
    (hrun : Relation.ReflTransGen (MigratePass hcode) state state')
    (hinv : state.1.Inv hcode) : state'.1.Inv hcode := by
  induction hrun with
  | refl => exact hinv
  | tail _ hpass ih => exact hpass.inv ih

theorem HMap.Inv.access (hinv : hmap.Inv hcode)
    (hsize : hmap.older.size > 0) :
    ∃ tab, hmap.older.tab = some tab ∧ hmap.migratePos < tab.length := by
  obtain ⟨tab, htab⟩ := hinv.older.allocated_of_size_pos hsize
  refine ⟨tab, htab, ?_⟩
  rw [hinv.older.capacity tab htab]
  exact Nat.lt_succ_of_le (hinv.migratePos_le hsize)

/-- The loop stands at the first pending chain: it passes an empty one and
takes the head of any other. -/
theorem hmMigrateStep_pending {next : HMap α} {work : Nat}
    (hinv : hmap.Inv hcode) (hsize : hmap.older.size > 0)
    (hstep : hmMigrateStep hcode hmap = some (next, work)) :
    (work = 0 ∧ next.migratePos = hmap.migratePos + 1 ∧
      hmap.pending = [] :: next.pending) ∨
    ∃ node chain rest, work = 1 ∧ next.migratePos = hmap.migratePos ∧
      hmap.pending = (node :: chain) :: rest ∧
      next.pending = chain :: rest := by
  obtain ⟨tab, htab, hpos⟩ := hinv.access hsize
  have hpending : hmap.pending =
      tab[hmap.migratePos] :: tab.drop (hmap.migratePos + 1) := by
    rw [HMap.pending, HTab.chains, htab, Option.getD_some,
      List.drop_eq_getElem_cons hpos]
  have hslot := List.getElem?_eq_getElem hpos
  cases hchain : tab[hmap.migratePos] with
  | nil =>
      left
      rw [hchain] at hslot hpending
      simp [hmMigrateStep, htab, hslot] at hstep
      obtain ⟨rfl, rfl⟩ := hstep
      refine ⟨rfl, rfl, ?_⟩
      rw [hpending, HMap.pending, HTab.chains, htab, Option.getD_some]
  | cons node chain =>
      right
      rw [hchain] at hslot hpending
      have hdetach : hDetach hmap.older ⟨hmap.migratePos, 0⟩ =
          some ({ hmap.older with
            tab := some (tab.set hmap.migratePos chain)
            size := hmap.older.size - 1 }, node) := by
        simp [hDetach, htab, hslot]
      simp only [hmMigrateStep, htab, Option.bind_eq_bind, Option.bind_some,
        hslot, List.isEmpty_cons, Bool.false_eq_true, if_false, hdetach] at hstep
      obtain ⟨newer, _, hnext⟩ := Option.bind_eq_some_iff.mp hstep
      cases hnext
      refine ⟨node, chain, tab.drop (hmap.migratePos + 1), rfl, rfl, hpending,
        ?_⟩
      have hset : hmap.migratePos <
          (tab.set hmap.migratePos chain).length := by simpa using hpos
      simp only [HMap.pending, HTab.chains, Option.getD_some]
      rw [List.drop_eq_getElem_cons hset, List.getElem_set_self,
        List.drop_set_of_lt (Nat.lt_succ_self _)]

theorem hmMigrate_mono {fuel fuel' nwork : Nat} (hle : fuel ≤ fuel')
    (hloop : hmMigrate hcode fuel nwork hmap = some hmap') :
    hmMigrate hcode fuel' nwork hmap = some hmap' := by
  induction fuel generalizing fuel' nwork hmap with
  | zero => simp [hmMigrate] at hloop
  | succ fuel ih =>
      obtain ⟨fuel', rfl⟩ : ∃ n, fuel' = n + 1 :=
        ⟨fuel' - 1, by omega⟩
      rw [hmMigrate] at hloop ⊢
      split at hloop
      · next hguard =>
        rw [if_pos hguard]
        obtain ⟨⟨next, work⟩, hstep, hrest⟩ := Option.bind_eq_some_iff.mp hloop
        exact Option.bind_eq_some_iff.mpr
          ⟨(next, work), hstep, ih (by omega) hrest⟩
      · next hguard => rw [if_neg hguard, hloop]

theorem hmMigrate_induct {motive : Nat → HMap α → Prop} {fuel nwork : Nat}
    (hinv : hmap.Inv hcode)
    (hloop : hmMigrate hcode fuel nwork hmap = some hmap')
    (stop : ∀ nwork, hmap'.Inv hcode →
      ¬ (nwork < kRehashingWork ∧ hmap'.older.size > 0) → motive nwork hmap')
    (skip : ∀ nwork hmap next, nwork < kRehashingWork →
      next.migratePos = hmap.migratePos + 1 →
      hmap.pending = [] :: next.pending → motive nwork next →
      motive nwork hmap)
    (move : ∀ nwork hmap next node chain rest, nwork < kRehashingWork →
      next.migratePos = hmap.migratePos →
      hmap.pending = (node :: chain) :: rest → next.pending = chain :: rest →
      motive (nwork + 1) next → motive nwork hmap) :
    motive nwork hmap := by
  induction fuel generalizing nwork hmap with
  | zero => simp [hmMigrate] at hloop
  | succ fuel ih =>
      rw [hmMigrate] at hloop
      split at hloop
      · next hguard =>
        obtain ⟨⟨next, work⟩, hstep, hrest⟩ := Option.bind_eq_some_iff.mp hloop
        have hnext := (MigratePass.pass hguard.1 hguard.2 hstep).inv hinv
        have hlater := ih hnext hrest
        rcases hmMigrateStep_pending hinv hguard.2 hstep with
          ⟨rfl, hpos, hpending⟩ | ⟨node, chain, rest, rfl, hpos, hpending, hafter⟩
        · exact skip nwork hmap next hguard.1 hpos hpending hlater
        · exact move nwork hmap next node chain rest hguard.1 hpos hpending hafter
            hlater
      · next hguard =>
        cases hloop
        exact stop nwork hinv hguard

theorem hmMigrate_moved {fuel nwork : Nat} (hinv : hmap.Inv hcode)
    (hloop : hmMigrate hcode fuel nwork hmap = some hmap') :
    ∃ moved, moved.length ≤ kRehashingWork - nwork ∧
      hmap.older.nodes = moved ++ hmap'.older.nodes := by
  rw [← hinv.pending_flatten]
  refine hmMigrate_induct (motive := fun nwork hmap => ∃ moved,
    moved.length ≤ kRehashingWork - nwork ∧
      hmap.pending.flatten = moved ++ hmap'.older.nodes) hinv hloop ?_ ?_ ?_
  · intro nwork hinv' _
    exact ⟨[], Nat.zero_le _, hinv'.pending_flatten⟩
  · rintro nwork hmap next _ _ hpending ⟨moved, hmoved, hnodes⟩
    exact ⟨moved, hmoved, by
      rw [hpending, List.flatten_cons, hnodes, List.nil_append]⟩
  · rintro nwork hmap next node chain rest hlt _ hpending hafter
      ⟨moved, hmoved, hnodes⟩
    refine ⟨node :: moved, ?_, ?_⟩
    · rw [List.length_cons]
      omega
    · rw [hafter, List.flatten_cons] at hnodes
      rw [hpending, List.flatten_cons, List.cons_append, hnodes,
        List.cons_append]

structure Helped (hcode : α → UInt64) (called swept helped : HMap α) :
    Prop where
  loop : ∀ fuel, hmMigrateFuel called ≤ fuel →
    hmMigrate hcode fuel 0 called = some swept
  result : hmHelpRehashing hcode called = some helped
  released : swept.older.nodes = [] → helped = { swept with older := {} }
  kept : swept.older.nodes ≠ [] → helped = swept ∧ helped.older.tab.isSome

theorem HMap.Inv.helped (hinv : hmap.Inv hcode) :
    ∃ swept helped, Helped hcode hmap swept helped ∧ swept.Inv hcode ∧
      helped.Inv hcode := by
  have hfuel : (kRehashingWork - 0) +
      (hmap.older.mask + 1 - hmap.migratePos) < hmMigrateFuel hmap := by
    unfold hmMigrateFuel
    omega
  obtain ⟨swept, hloop, hswept, _⟩ :=
    hmMigrate_spec (hmMigrateFuel hmap) 0 hmap hinv hfuel
  obtain ⟨helped, hresult, hhelped, _⟩ := hmHelpRehashing_spec hinv
  have hempty : swept.older.size = 0 ↔ swept.older.nodes = [] := by
    rw [hswept.older.counted, List.length_eq_zero_iff]
  have hdone := hresult
  simp only [hmHelpRehashing, hloop, Option.bind_eq_bind, Option.bind_some]
    at hdone
  refine ⟨swept, helped, ⟨fun fuel hle => hmMigrate_mono hle hloop, hresult,
    ?_, ?_⟩, hswept, hhelped⟩
  · intro hnil
    cases htab : swept.older.tab with
    | none =>
        rw [if_neg (by simp [htab])] at hdone
        cases hdone
        rw [← hswept.older.unallocated htab]
    | some tab =>
        rw [if_pos ⟨hempty.mpr hnil, by simp [htab]⟩] at hdone
        cases hdone
        rfl
  · intro hnodes
    have hsize : swept.older.size ≠ 0 := fun hzero => hnodes (hempty.mp hzero)
    rw [if_neg (fun h => hsize h.1)] at hdone
    cases hdone
    obtain ⟨tab, htab⟩ :=
      hswept.older.allocated_of_size_pos (Nat.pos_of_ne_zero hsize)
    exact ⟨rfl, by simp [htab]⟩

theorem Helped.allocated_iff {called swept helped : HMap α}
    (h : Helped hcode called swept helped) :
    helped.older.tab.isSome ↔ swept.older.nodes ≠ [] := by
  constructor
  · intro halloc hnil
    rw [h.released hnil] at halloc
    cases halloc
  · exact fun hnodes => (h.kept hnodes).2

theorem Helped.migratePos {called swept helped : HMap α}
    (h : Helped hcode called swept helped) :
    helped.migratePos = swept.migratePos := by
  by_cases hnil : swept.older.nodes = []
  · rw [h.released hnil]
  · rw [(h.kept hnil).1]

/-! One operation on a map. -/

inductive HMapOp (α : Type) where
  | insert (node : α)
  | lookup (key : Probe α)
  | delete (key : Probe α)

def HMapOp.Applies (stored : Multiset α) : HMapOp α → Prop
  | .insert node => node ∉ stored
  | .lookup _ => True
  | .delete _ => True

def HMapOp.run (hcode : α → UInt64) (hmap : HMap α) :
    HMapOp α → Option (HMap α)
  | .insert node => hmInsert hcode hmap node
  | .lookup key => (hmLookup hcode hmap key).map Prod.fst
  | .delete key => (hmDelete hcode hmap key).map Prod.fst

/-- The map on which the operation calls `hm_help_rehashing`. -/
def HMapOp.called (hcode : α → UInt64) (hmap : HMap α) :
    HMapOp α → Option (HMap α)
  | .insert node => do
      let newer ← hmFirstTable hmap
      let newer ← hInsert hcode newer node
      hmGrow { hmap with newer := newer }
  | .lookup _ => some hmap
  | .delete _ => some hmap

theorem hmInsert_eq_called (node : α) :
    hmInsert hcode hmap node =
      ((HMapOp.insert node).called hcode hmap).bind
        (hmHelpRehashing hcode) := by
  simp only [hmInsert, HMapOp.called, Option.bind_eq_bind, Option.bind_assoc]

def HMapOp.Triggers (hmap : HMap α) : HMapOp α → Prop
  | .insert _ => hmap.older.tab = none ∧
      (hmap.newer.mask + 1) * kMaxLoadFactor ≤ hmap.newer.size + 1
  | .lookup _ => False
  | .delete _ => False

instance (hmap : HMap α) (op : HMapOp α) : Decidable (op.Triggers hmap) :=
  match op with
  | .insert _ =>
      decidable_of_iff (hmap.older.tab.isNone ∧
        (hmap.newer.mask + 1) * kMaxLoadFactor ≤ hmap.newer.size + 1)
        (by simp [HMapOp.Triggers])
  | .lookup _ => inferInstanceAs (Decidable False)
  | .delete _ => inferInstanceAs (Decidable False)

/-- An insertion links the node into `newer` and then either leaves both
tables there or starts a migration of that table. -/
inductive Linked (hcode : α → UInt64) (hmap : HMap α) (node : α) :
    HMap α → Prop
  | kept {newer : HTab α} (size : newer.size = hmap.newer.size + 1)
      (mask : newer.mask = hmap.newer.mask ∨
        hmap.newer = {} ∧ newer.mask = 3)
      (quiet : ¬ (HMapOp.insert node).Triggers hmap) :
      Linked hcode hmap node { hmap with newer := newer }
  | demoted {newer fresh : HTab α} {chain : List α}
      (slot : hmap.newer.chains[slotOf (hcode node) hmap.newer.mask]? =
        some chain)
      (chains : newer.chains = hmap.newer.chains.set
        (slotOf (hcode node) hmap.newer.mask) (node :: chain))
      (size : newer.size = hmap.newer.size + 1)
      (full : (HMapOp.insert node).Triggers hmap)
      (allocated : newer.tab.isSome) (unused : fresh.size = 0)
      (double : fresh.mask + 1 = (hmap.newer.mask + 1) * 2) :
      Linked hcode hmap node { newer := fresh, older := newer }

theorem hInit_fields {n : Nat} {htab : HTab α}
    (hinit : hInit n = some htab) : htab.size = 0 ∧ htab.mask + 1 = n := by
  rw [hInit] at hinit
  split at hinit
  · next hassert =>
    cases hinit
    exact ⟨rfl, Nat.sub_add_cancel hassert.1⟩
  · cases hinit

theorem hInsert_fields {htab htab' : HTab α} {node : α}
    (hinsert : hInsert hcode htab node = some htab') :
    ∃ chain, htab.chains[slotOf (hcode node) htab.mask]? = some chain ∧
      htab'.chains = htab.chains.set (slotOf (hcode node) htab.mask)
        (node :: chain) ∧
      htab'.tab.isSome ∧ htab'.mask = htab.mask ∧
      htab'.size = htab.size + 1 := by
  obtain ⟨tab, htab, hrest⟩ := Option.bind_eq_some_iff.mp hinsert
  obtain ⟨chain, hchain, hresult⟩ := Option.bind_eq_some_iff.mp hrest
  cases hresult
  refine ⟨chain, ?_, ?_, rfl, rfl, rfl⟩
  · rw [HTab.chains, htab, Option.getD_some, hchain]
  · simp only [HTab.chains, htab, Option.getD_some]

theorem hmGrow_cases {linked grown : HMap α}
    (hgrow : hmGrow linked = some grown) :
    (¬ (linked.older.tab = none ∧
        (linked.newer.mask + 1) * kMaxLoadFactor ≤ linked.newer.size) ∧
      grown = linked) ∨
    ((linked.older.tab = none ∧
        (linked.newer.mask + 1) * kMaxLoadFactor ≤ linked.newer.size) ∧
      ∃ fresh, hInit ((linked.newer.mask + 1) * 2) = some fresh ∧
        grown = { newer := fresh, older := linked.newer }) := by
  simp only [hmGrow, Option.isNone_iff_eq_none, ge_iff_le] at hgrow
  split at hgrow
  · next hguard =>
    rw [hmTriggerRehashing, hguard.1, if_neg (by simp)] at hgrow
    obtain ⟨fresh, hinit, hfresh⟩ := Option.bind_eq_some_iff.mp hgrow
    cases hfresh
    exact .inr ⟨hguard, fresh, hinit, rfl⟩
  · next hguard =>
    cases hgrow
    exact .inl ⟨hguard, rfl⟩

theorem HMap.Inv.linked {node : α} {called : HMap α} (hinv : hmap.Inv hcode)
    (hcalled : (HMapOp.insert node).called hcode hmap = some called) :
    Linked hcode hmap node called := by
  simp only [HMapOp.called, Option.bind_eq_bind, Option.bind_eq_some_iff]
    at hcalled
  obtain ⟨first, hfirst, newer, hinsert, hgrow⟩ := hcalled
  obtain ⟨chain, hslot, hchains, halloc, hmask, hsize⟩ :=
    hInsert_fields hinsert
  cases htab : hmap.newer.tab with
  | none =>
      -- One node in the four slots of the first table is below its threshold.
      have hunused := hinv.newer.unallocated htab
      rw [hmFirstTable, htab, Option.isNone_none, if_pos rfl] at hfirst
      obtain ⟨hfirstSize, hfirstMask⟩ := hInit_fields hfirst
      rcases hmGrow_cases hgrow with ⟨_, rfl⟩ | ⟨hguard, _⟩
      · refine .kept ?_ (.inr ⟨hunused, by omega⟩) ?_
        · rw [hsize, hfirstSize, hunused]
        · simp [HMapOp.Triggers, hunused, kMaxLoadFactor]
      · have hfull := hguard.2
        simp only [kMaxLoadFactor] at hfull
        omega
  | some tab =>
      have hcurrent : first = hmap.newer := by
        simpa [hmFirstTable, htab] using hfirst.symm
      subst hcurrent
      rcases hmGrow_cases hgrow with
        ⟨hguard, rfl⟩ | ⟨hguard, fresh, hinit, rfl⟩
      · rw [hmask, hsize] at hguard
        exact .kept hsize (.inl hmask) hguard
      · obtain ⟨hfreshSize, hfreshMask⟩ := hInit_fields hinit
        rw [hmask] at hfreshMask
        rw [hmask, hsize] at hguard
        exact .demoted hslot hchains hsize hguard halloc hfreshSize hfreshMask

theorem HMap.Inv.called {stored : Multiset α} (hinv : hmap.Inv hcode)
    (hstored : (hmap.nodes : Multiset α) = stored) {op : HMapOp α}
    (happlies : op.Applies stored) :
    ∃ called, op.called hcode hmap = some called ∧ called.Inv hcode := by
  cases op with
  | insert node =>
      subst hstored
      obtain ⟨first, newer, hfirst, hinsert, hlinked, _⟩ :=
        hmLink_spec hinv happlies
      obtain ⟨called, hgrow, hcalled, _⟩ := hmGrow_spec hlinked
      exact ⟨called, by simp [HMapOp.called, hfirst, hinsert, hgrow], hcalled⟩
  | lookup key => exact ⟨hmap, rfl, hinv⟩
  | delete key => exact ⟨hmap, rfl, hinv⟩

theorem hDetach_fields {htab htab' : HTab α} {link : Link} {node : α}
    (hdetach : hDetach htab link = some (htab', node)) :
    htab.tab.isSome ∧ htab'.tab.isSome ∧ htab'.mask = htab.mask ∧
      htab'.size = htab.size - 1 := by
  obtain ⟨tab, htab, hrest⟩ := Option.bind_eq_some_iff.mp hdetach
  obtain ⟨chain, _, hrest⟩ := Option.bind_eq_some_iff.mp hrest
  obtain ⟨_, _, hresult⟩ := Option.bind_eq_some_iff.mp hrest
  cases hresult
  exact ⟨by simp [htab], rfl, rfl, rfl⟩

theorem hmLookup_helped {key : Probe α} {found : Option α}
    (hlookup : hmLookup hcode hmap key = some (hmap', found)) :
    hmHelpRehashing hcode hmap = some hmap' := by
  obtain ⟨helped, hhelp, hrest⟩ := Option.bind_eq_some_iff.mp hlookup
  obtain ⟨newerLink, _, hrest⟩ := Option.bind_eq_some_iff.mp hrest
  cases newerLink with
  | some link =>
      obtain ⟨_, _, hresult⟩ := Option.bind_eq_some_iff.mp hrest
      cases hresult
      exact hhelp
  | none =>
      obtain ⟨olderLink, _, hrest⟩ := Option.bind_eq_some_iff.mp hrest
      cases olderLink with
      | some link =>
          obtain ⟨_, _, hresult⟩ := Option.bind_eq_some_iff.mp hrest
          cases hresult
          exact hhelp
      | none =>
          cases hrest
          exact hhelp

theorem hmDelete_helped {key : Probe α} {found : Option α}
    (hdelete : hmDelete hcode hmap key = some (hmap', found)) :
    ∃ helped, hmHelpRehashing hcode hmap = some helped ∧
      (hmap' = helped ∨
        (∃ link newer node, hDetach helped.newer link = some (newer, node) ∧
          hmap' = { helped with newer := newer }) ∨
        ∃ link older node, hDetach helped.older link = some (older, node) ∧
          hmap' = { helped with older := older }) := by
  obtain ⟨helped, hhelp, hrest⟩ := Option.bind_eq_some_iff.mp hdelete
  refine ⟨helped, hhelp, ?_⟩
  obtain ⟨newerLink, _, hrest⟩ := Option.bind_eq_some_iff.mp hrest
  cases newerLink with
  | some link =>
      obtain ⟨⟨newer, node⟩, hdetach, hresult⟩ :=
        Option.bind_eq_some_iff.mp hrest
      cases hresult
      exact .inr (.inl ⟨link, newer, node, hdetach, rfl⟩)
  | none =>
      obtain ⟨olderLink, _, hrest⟩ := Option.bind_eq_some_iff.mp hrest
      cases olderLink with
      | some link =>
          obtain ⟨⟨older, node⟩, hdetach, hresult⟩ :=
            Option.bind_eq_some_iff.mp hrest
          cases hresult
          exact .inr (.inr ⟨link, older, node, hdetach, rfl⟩)
      | none =>
          cases hrest
          exact .inl rfl

structure Rest (helped hmap' : HMap α) : Prop where
  cursor : hmap'.migratePos = helped.migratePos
  allocated : hmap'.older.tab.isSome = helped.older.tab.isSome
  newerMask : hmap'.newer.mask = helped.newer.mask
  newerSize : hmap'.newer.size ≤ helped.newer.size
  olderSize : hmap'.older.size ≤ helped.older.size

theorem Rest.refl (hmap : HMap α) : Rest hmap hmap :=
  ⟨rfl, rfl, rfl, Nat.le_refl _, Nat.le_refl _⟩

theorem rest_of_delete {key : Probe α} {found : Option α} {helped : HMap α}
    (hhelp : hmHelpRehashing hcode hmap = some helped)
    (hdelete : hmDelete hcode hmap key = some (hmap', found)) :
    Rest helped hmap' := by
  obtain ⟨_, hhelp', hrest⟩ := hmDelete_helped hdelete
  rw [hhelp] at hhelp'
  cases hhelp'
  rcases hrest with rfl | ⟨link, newer, node, hdetach, rfl⟩ |
    ⟨link, older, node, hdetach, rfl⟩
  · exact Rest.refl _
  · obtain ⟨_, _, hmask, hsize⟩ := hDetach_fields hdetach
    exact ⟨rfl, rfl, hmask, hsize.trans_le (Nat.sub_le _ _), Nat.le_refl _⟩
  · obtain ⟨hbefore, hafter, _, hsize⟩ := hDetach_fields hdetach
    exact ⟨rfl, hafter.trans hbefore.symm, rfl, Nat.le_refl _,
      hsize.trans_le (Nat.sub_le _ _)⟩

theorem HMapOp.run_of_helped {op : HMapOp α} {called helped : HMap α}
    (hinv : hmap.Inv hcode) (hcalled : op.called hcode hmap = some called)
    (hresult : hmHelpRehashing hcode called = some helped) :
    ∃ hmap', op.run hcode hmap = some hmap' ∧ Rest helped hmap' := by
  cases op with
  | insert node =>
      refine ⟨helped, ?_, Rest.refl _⟩
      rw [HMapOp.run, hmInsert_eq_called, hcalled, Option.bind_some, hresult]
  | lookup key =>
      cases hcalled
      obtain ⟨hmap', found, hlookup, _⟩ := hmLookup_spec key hinv
      have hhelped := hmLookup_helped hlookup
      rw [hresult] at hhelped
      cases hhelped
      exact ⟨helped, by rw [HMapOp.run, hlookup, Option.map_some],
        Rest.refl _⟩
  | delete key =>
      cases hcalled
      obtain ⟨hmap', found, hdelete, _⟩ := hmDelete_spec key hinv
      exact ⟨hmap', by rw [HMapOp.run, hdelete, Option.map_some],
        rest_of_delete hresult hdelete⟩

/-! Every call of a run. -/

variable [DecidableEq α]

/-- The loop is guarded by `older.size` alone, and the count of nodes from the
cursor on keeps it inside the table, ends it, and lets `older` go exactly when
it is empty. -/
theorem migration_in_bounds {stored : Multiset α}
    (hreach : HMapReachable hcode hmap stored) :
    (hmap.older.tab.isSome →
      (∀ (i : Nat) (chain : List α), i < hmap.migratePos →
        hmap.older.chains[i]? = some chain → chain = []) ∧
      hmap.older.chains.length = hmap.older.mask + 1 ∧
      hmap.older.size =
        (hmap.older.chains.drop hmap.migratePos).flatten.length) ∧
    (∀ op : HMapOp α, op.Applies stored →
      ∃ called swept helped hmap', op.called hcode hmap = some called ∧
        (∀ (loop : HMap α) (nwork : Nat),
          Relation.ReflTransGen (MigratePass hcode) (called, 0)
            (loop, nwork) →
          nwork < kRehashingWork → loop.older.size > 0 →
          loop.migratePos ≤ loop.older.mask ∧
            ∃ tab, loop.older.tab = some tab ∧
              loop.migratePos < tab.length) ∧
        (∀ fuel, hmMigrateFuel called ≤ fuel →
          hmMigrate hcode fuel 0 called = some swept) ∧
        hmHelpRehashing hcode called = some helped ∧
        (swept.older.nodes = [] → helped = { swept with older := {} }) ∧
        (swept.older.nodes ≠ [] →
          helped = swept ∧ helped.older.tab.isSome) ∧
        op.run hcode hmap = some hmap' ∧
        hmap'.older.tab.isSome = helped.older.tab.isSome) ∧
    (∀ (node : α) (first newer : HTab α), node ∉ stored →
      hmFirstTable hmap = some first →
      hInsert hcode first node = some newer →
      hmap.older.tab = none →
      newer.size ≥ (newer.mask + 1) * kMaxLoadFactor →
      ∃ grown, hmTriggerRehashing { hmap with newer := newer } =
        some grown) := by
  obtain ⟨hinv, hstored⟩ := hreach.tracks
  dsimp only at hinv hstored
  refine ⟨?_, ?_, ?_⟩
  · intro halloc
    obtain ⟨tab, htab⟩ := Option.isSome_iff_exists.mp halloc
    refine ⟨hinv.swept, ?_, hinv.pending_count⟩
    rw [HTab.chains, htab, Option.getD_some, hinv.older.capacity tab htab]
  · intro op happlies
    obtain ⟨called, hcalled, hcalledInv⟩ := hinv.called hstored happlies
    obtain ⟨swept, helped, hhelped, _⟩ := hcalledInv.helped
    obtain ⟨hmap', hrun, hrest⟩ :=
      HMapOp.run_of_helped hinv hcalled hhelped.result
    refine ⟨called, swept, helped, hmap', hcalled, ?_, hhelped.loop,
      hhelped.result, hhelped.released, hhelped.kept, hrun, hrest.allocated⟩
    intro loop nwork hpasses _ hleft
    have hloop := MigratePass.inv_of_run hpasses hcalledInv
    exact ⟨hloop.migratePos_le hleft, hloop.access hleft⟩
  · intro node first newer hfresh hfirst hinsert hidle hfull
    have hgrow : hmGrow { hmap with newer := newer } =
        hmTriggerRehashing { hmap with newer := newer } :=
      if_pos ⟨by simp [hidle], hfull⟩
    have happlies : (HMapOp.insert node).Applies stored := hfresh
    obtain ⟨called, hcalled, _⟩ := hinv.called hstored happlies
    refine ⟨called, ?_⟩
    rw [← hgrow]
    simpa [HMapOp.called, hfirst, hinsert] using hcalled

theorem migration_in_bounds_migrating : ∃ hmap called swept : HMap Nat,
    hmap.older.size = 128 ∧ hmap.migratePos = 15 ∧
    hmap.pending.flatten.length = 128 ∧
    (HMapOp.insert 256).called (fun n => UInt64.ofNat n) hmap = some called ∧
    hmMigrate (fun n => UInt64.ofNat n) (hmMigrateFuel called) 0 called =
      some swept ∧
    ∀ (loop : HMap Nat) (nwork : Nat),
      Relation.ReflTransGen (MigratePass fun n => UInt64.ofNat n) (called, 0)
        (loop, nwork) →
      nwork < kRehashingWork → loop.older.size > 0 →
      loop.migratePos ≤ loop.older.mask ∧
        ∃ tab, loop.older.tab = some tab ∧ loop.migratePos < tab.length := by
  obtain ⟨hmap, hreach, -, holder, halloc, hcursor⟩ := exists_migrating
  obtain ⟨hmigrating, hops, -⟩ := migration_in_bounds hreach
  obtain ⟨-, -, hpending⟩ := hmigrating halloc
  obtain ⟨called, swept, _, _, hcalled, hbounds, hswept, -⟩ :=
    hops (.insert 256) Multiset.notMem_range_self
  exact ⟨hmap, called, swept, holder, hcursor, hpending.symm.trans holder, hcalled,
    hswept _ (Nat.le_refl _), hbounds⟩

end MiniRedis.Store
