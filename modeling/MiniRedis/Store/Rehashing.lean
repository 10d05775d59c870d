import MiniRedis.Store.HashTable
import Mathlib.Data.Multiset.UnionInter

namespace MiniRedis.Store

open MiniRedis.Data

variable {α : Type} {hcode : α → UInt64} {hmap : HMap α}

/-! Progressive rehashing.  The invariant holds at every migration point. -/

def HMap.nodes (hmap : HMap α) : List α := hmap.newer.nodes ++ hmap.older.nodes

structure HMap.Inv (hcode : α → UInt64) (hmap : HMap α) : Prop where
  newer : hmap.newer.WF hcode
  older : hmap.older.WF hcode
  nodup : hmap.nodes.Nodup
  target : hmap.older.tab.isSome →
    hmap.newer.tab.isSome ∧
      hmap.newer.mask + 1 = 2 * (hmap.older.mask + 1)
  swept : ∀ (i : Nat) (chain : List α), i < hmap.migratePos →
    hmap.older.chains[i]? = some chain → chain = []

theorem HMap.Inv.empty : HMap.Inv hcode ({} : HMap α) where
  newer := HTab.WF.empty
  older := HTab.WF.empty
  nodup := by simp [HMap.nodes, HTab.nodes, HTab.chains]
  target := by simp
  swept := by simp [HTab.chains]

theorem HMap.Inv.hmSize_eq (hinv : hmap.Inv hcode) :
    hmSize hmap = hmap.nodes.length := by
  simp [hmSize, HMap.nodes, hinv.newer.counted, hinv.older.counted]

theorem HTab.WF.allocated_of_size_pos {htab : HTab α} (hwf : htab.WF hcode)
    (hsize : htab.size > 0) : ∃ tab, htab.tab = some tab := by
  cases htabEq : htab.tab with
  | none =>
      rw [hwf.unallocated htabEq] at hsize
      exact absurd hsize (Nat.lt_irrefl 0)
  | some tab => exact ⟨tab, rfl⟩

/-- While `older` holds a node the cursor is inside it. -/
theorem HMap.Inv.migratePos_le (hinv : hmap.Inv hcode)
    (hsize : hmap.older.size > 0) : hmap.migratePos ≤ hmap.older.mask := by
  obtain ⟨tab, htab⟩ := hinv.older.allocated_of_size_pos hsize
  have hnodes : hmap.older.nodes ≠ [] := by
    intro hnil
    rw [hinv.older.counted, hnil] at hsize
    simp at hsize
  obtain ⟨node, hnode⟩ := List.exists_mem_of_ne_nil _ hnodes
  obtain ⟨i, chain, hchain, hmem⟩ := mem_flatten_iff_getElem?.mp hnode
  have hi : hmap.migratePos ≤ i := by
    by_contra hlt
    rw [hinv.swept i chain (by omega) hchain] at hmem
    simp at hmem
  have hbound : i < tab.length := by
    simp only [HTab.chains, htab, Option.getD_some] at hchain
    exact (List.getElem?_eq_some_iff.mp hchain).1
  rw [hinv.older.capacity tab htab] at hbound
  omega

/-- What one pass through the migration loop does: it skips an empty slot or
moves the head of the current one. -/
structure MigrateStep (hcode : α → UInt64) (hmap hmap' : HMap α)
    (work : Nat) : Prop where
  inv : hmap'.Inv hcode
  perm : hmap'.nodes.Perm hmap.nodes
  newerAlloc : hmap'.newer.tab.isSome = hmap.newer.tab.isSome
  olderAlloc : hmap'.older.tab.isSome
  newerMask : hmap'.newer.mask = hmap.newer.mask
  olderMask : hmap'.older.mask = hmap.older.mask
  moved : hmap'.older.size + work = hmap.older.size
  cursor : hmap'.migratePos + work = hmap.migratePos + 1

theorem hmMigrateStep_skip (hinv : hmap.Inv hcode)
    (holder : hmap.older.tab.isSome)
    (hslot : hmap.older.chains[hmap.migratePos]? = some []) :
    MigrateStep hcode hmap { hmap with migratePos := hmap.migratePos + 1 } 0
    where
  inv := by
    refine ⟨hinv.newer, hinv.older, hinv.nodup, hinv.target, ?_⟩
    intro i chain hi hchain
    rcases Nat.lt_succ_iff_lt_or_eq.mp hi with hlt | rfl
    · exact hinv.swept i chain hlt hchain
    · rw [hslot] at hchain
      cases hchain
      rfl
  perm := List.Perm.refl _
  newerAlloc := rfl
  olderAlloc := holder
  newerMask := rfl
  olderMask := rfl
  moved := rfl
  cursor := rfl

theorem hmMigrateStep_move {newer older : HTab α} {node : α}
    (hinv : hmap.Inv hcode) (holder : hmap.older.tab.isSome)
    (hnewerWF : newer.WF hcode) (holderWF : older.WF hcode)
    (hnewer : newer.nodes.Perm (node :: hmap.newer.nodes))
    (holderNodes : hmap.older.nodes.Perm (node :: older.nodes))
    (hnewerAlloc : newer.tab.isSome) (holderAlloc : older.tab.isSome)
    (hnewerMask : newer.mask = hmap.newer.mask)
    (holderMask : older.mask = hmap.older.mask)
    (hmoved : older.size + 1 = hmap.older.size)
    (hsub : ∀ (i : Nat) (chain : List α), older.chains[i]? = some chain →
      ∃ before, hmap.older.chains[i]? = some before ∧ chain.Sublist before) :
    MigrateStep hcode hmap { hmap with newer := newer, older := older } 1 := by
  have hperm : (newer.nodes ++ older.nodes).Perm hmap.nodes := by
    calc
      (newer.nodes ++ older.nodes).Perm
          (node :: hmap.newer.nodes ++ older.nodes) :=
        hnewer.append_right older.nodes
      (node :: hmap.newer.nodes ++ older.nodes).Perm
          (hmap.newer.nodes ++ node :: older.nodes) :=
        List.perm_middle.symm
      (hmap.newer.nodes ++ node :: older.nodes).Perm hmap.nodes :=
        holderNodes.symm.append_left hmap.newer.nodes
  obtain ⟨htarget, hdouble⟩ := hinv.target holder
  refine ⟨⟨hnewerWF, holderWF, ?_, ?_, ?_⟩, hperm, ?_, holderAlloc,
    hnewerMask, holderMask, hmoved, rfl⟩
  · exact hperm.nodup_iff.mpr hinv.nodup
  · intro _
    exact ⟨hnewerAlloc, by rw [hnewerMask, holderMask, hdouble]⟩
  · intro i chain hi hchain
    obtain ⟨before, hbefore, hsublist⟩ := hsub i chain hchain
    rw [hinv.swept i before hi hbefore] at hsublist
    exact List.sublist_nil.mp hsublist
  · rw [htarget, hnewerAlloc]

theorem hmMigrateStep_spec (hinv : hmap.Inv hcode)
    (hsize : hmap.older.size > 0) :
    ∃ hmap' work, hmMigrateStep hcode hmap = some (hmap', work) ∧
      work ≤ 1 ∧ MigrateStep hcode hmap hmap' work := by
  obtain ⟨tab, htab⟩ := hinv.older.allocated_of_size_pos hsize
  have holder : hmap.older.tab.isSome := by simp [htab]
  have hpos : hmap.migratePos < tab.length := by
    rw [hinv.older.capacity tab htab]
    exact Nat.lt_succ_of_le (hinv.migratePos_le hsize)
  have hslot := List.getElem?_eq_getElem hpos
  have hchains : hmap.older.chains[hmap.migratePos]? =
      some tab[hmap.migratePos] := by
    simp [HTab.chains, htab]
  cases hchain : tab[hmap.migratePos] with
  | nil =>
      rw [hchain] at hslot hchains
      refine ⟨{ hmap with migratePos := hmap.migratePos + 1 }, 0, ?_, by omega,
        hmMigrateStep_skip hinv holder hchains⟩
      simp [hmMigrateStep, htab, hslot]
  | cons node rest =>
      rw [hchain] at hslot
      have hderef : hmap.older.deref ⟨hmap.migratePos, 0⟩ = some node :=
        HTab.deref_eq_some.mpr ⟨tab, node :: rest, htab, hslot, rfl⟩
      obtain ⟨older, hdetach, holderWF, holderNodes, holderAlloc, holderMask,
        hmoved, hsub⟩ := hDetach_spec hinv.older hderef
      obtain ⟨newer, hinsert, hnewerWF, hnewer, hnewerAlloc, hnewerMask, _⟩ :=
        hInsert_spec node hinv.newer (hinv.target holder).1
      refine ⟨{ hmap with newer := newer, older := older }, 1, ?_, by omega,
        hmMigrateStep_move hinv holder hnewerWF holderWF hnewer holderNodes
          hnewerAlloc holderAlloc hnewerMask holderMask hmoved hsub⟩
      simp [hmMigrateStep, htab, hslot, hdetach, hinsert]

theorem hmMigrate_spec :
    ∀ (fuel nwork : Nat) (hmap : HMap α), hmap.Inv hcode →
      (kRehashingWork - nwork) +
        (hmap.older.mask + 1 - hmap.migratePos) < fuel →
      ∃ hmap', hmMigrate hcode fuel nwork hmap = some hmap' ∧
        hmap'.Inv hcode ∧ hmap'.nodes.Perm hmap.nodes ∧
        hmap'.newer.tab.isSome = hmap.newer.tab.isSome ∧
        hmap'.older.tab.isSome = hmap.older.tab.isSome ∧
        hmap'.newer.mask = hmap.newer.mask ∧
        hmap'.older.mask = hmap.older.mask ∧
        hmap'.older.size = hmap.older.size - (kRehashingWork - nwork) := by
  intro fuel
  induction fuel with
  | zero => intro nwork hmap _ hfuel; omega
  | succ fuel ih =>
      intro nwork hmap hinv hfuel
      by_cases hguard : nwork < kRehashingWork ∧ hmap.older.size > 0
      · obtain ⟨next, work, hstep, hwork, spec⟩ :=
          hmMigrateStep_spec hinv hguard.2
        have hpos := hinv.migratePos_le hguard.2
        have hmoved := spec.moved
        have hcursor := spec.cursor
        obtain ⟨hmap', hloop, hinv', hperm, hnewerAlloc, holderAlloc,
          hnewerMask, holderMask, hsize⟩ :=
            ih (nwork + work) next spec.inv (by rw [spec.olderMask]; omega)
        obtain ⟨tab, htab⟩ := hinv.older.allocated_of_size_pos hguard.2
        refine ⟨hmap', ?_, hinv', hperm.trans spec.perm, ?_, ?_, ?_, ?_, ?_⟩
        · simp [hmMigrate, hguard, hstep, hloop]
        · rw [hnewerAlloc, spec.newerAlloc]
        · rw [holderAlloc, spec.olderAlloc, htab]
          rfl
        · rw [hnewerMask, spec.newerMask]
        · rw [holderMask, spec.olderMask]
        · omega
      · refine ⟨hmap, ?_, hinv, List.Perm.refl _, rfl, rfl, rfl, rfl, ?_⟩
        · rw [hmMigrate, if_neg hguard]
        · omega

/-- `older` survives a call exactly when it still holds a node. -/
theorem hmHelpRehashing_spec (hinv : hmap.Inv hcode) :
    ∃ hmap', hmHelpRehashing hcode hmap = some hmap' ∧
      hmap'.Inv hcode ∧ hmap'.nodes.Perm hmap.nodes ∧
      hmap'.newer.tab.isSome = hmap.newer.tab.isSome ∧
      hmap'.newer.mask = hmap.newer.mask ∧
      hmap'.older.size = hmap.older.size - kRehashingWork ∧
      (hmap'.older.tab.isSome ↔ 0 < hmap'.older.size) := by
  have hfuel : (kRehashingWork - 0) +
      (hmap.older.mask + 1 - hmap.migratePos) < hmMigrateFuel hmap := by
    unfold hmMigrateFuel
    omega
  obtain ⟨next, hloop, hnext, hperm, hnewerAlloc, _, hnewerMask, _,
    hsize⟩ := hmMigrate_spec (hmMigrateFuel hmap) 0 hmap hinv hfuel
  by_cases hdone : next.older.size = 0 ∧ next.older.tab.isSome
  · have hnil : next.older.nodes = [] := by
      apply List.length_eq_zero_iff.mp
      rw [← hnext.older.counted]
      exact hdone.1
    have hnodes : ({ next with older := {} } : HMap α).nodes = next.nodes := by
      simp [HMap.nodes, hnil]
    refine ⟨{ next with older := {} }, ?_, ?_, ?_, hnewerAlloc, hnewerMask,
      ?_, by simp⟩
    · simp [hmHelpRehashing, hloop, hdone]
    · refine ⟨hnext.newer, HTab.WF.empty, ?_, by simp, by simp [HTab.chains]⟩
      rw [hnodes]
      exact hnext.nodup
    · rw [hnodes]
      exact hperm
    · rw [← Nat.sub_zero kRehashingWork, ← hsize, hdone.1]
  · refine ⟨next, ?_, hnext, hperm, hnewerAlloc, hnewerMask, hsize, ?_⟩
    · simp only [hmHelpRehashing, hloop, Option.bind_eq_bind, Option.bind_some]
      rw [if_neg hdone]
    · constructor
      · intro halloc
        exact Nat.pos_of_ne_zero fun hzero => hdone ⟨hzero, halloc⟩
      · intro hpos
        obtain ⟨tab, htab⟩ := hnext.older.allocated_of_size_pos hpos
        simp [htab]

theorem hmGrow_spec (hinv : hmap.Inv hcode) :
    ∃ hmap', hmGrow hmap = some hmap' ∧ hmap'.Inv hcode ∧
      hmap'.nodes.Perm hmap.nodes := by
  by_cases hgrow : hmap.older.tab.isNone ∧
      hmap.newer.size ≥ (hmap.newer.mask + 1) * kMaxLoadFactor
  · have holder : hmap.older = {} :=
      hinv.older.unallocated (Option.isNone_iff_eq_none.mp hgrow.1)
    obtain ⟨k, hk⟩ := hinv.newer.power
    have hcap : (hmap.newer.mask + 1) * 2 = 2 ^ (k + 1) := by
      rw [hk, pow_succ]
    obtain ⟨newer, hinit, hwf, hnodes, hnewerAlloc, hmask⟩ :=
      hInit_spec hcode (k + 1)
    have hperm : (newer.nodes ++ hmap.newer.nodes).Perm hmap.nodes := by
      simp [HMap.nodes, hnodes, holder]
    refine ⟨{ newer := newer, older := hmap.newer, migratePos := 0 }, ?_, ?_,
      hperm⟩
    · rw [hmGrow, if_pos hgrow]
      simp [hmTriggerRehashing, holder, hcap, hinit]
    · refine ⟨hwf, hinv.newer, hperm.nodup_iff.mpr hinv.nodup, ?_, by simp⟩
      intro _
      refine ⟨hnewerAlloc, ?_⟩
      simp only
      omega
  · exact ⟨hmap, by rw [hmGrow, if_neg hgrow], hinv, List.Perm.refl _⟩

theorem hmFirstTable_spec (hinv : hmap.Inv hcode) :
    ∃ newer, hmFirstTable hmap = some newer ∧ newer.WF hcode ∧
      newer.tab.isSome ∧ newer.nodes = hmap.newer.nodes ∧
      (hmap.newer.tab.isSome → newer.mask = hmap.newer.mask) := by
  cases htab : hmap.newer.tab with
  | none =>
      obtain ⟨newer, hinit, hwf, hnodes, halloc, _⟩ := hInit_spec hcode 2
      refine ⟨newer, ?_, hwf, halloc, ?_, by simp⟩
      · simpa [hmFirstTable, htab] using hinit
      · rw [hnodes, hinv.newer.unallocated htab]
        rfl
  | some tab =>
      exact ⟨hmap.newer, by simp [hmFirstTable, htab], hinv.newer,
        by simp [htab], rfl, fun _ => rfl⟩

theorem hmLink_spec {node : α} (hinv : hmap.Inv hcode)
    (hfresh : node ∉ hmap.nodes) :
    ∃ first newer, hmFirstTable hmap = some first ∧
      hInsert hcode first node = some newer ∧
      ({ hmap with newer := newer } : HMap α).Inv hcode ∧
      ({ hmap with newer := newer } : HMap α).nodes.Perm
        (node :: hmap.nodes) ∧
      newer.size = hmap.newer.size + 1 ∧
      (hmap.newer.tab.isSome → newer.mask = hmap.newer.mask) := by
  obtain ⟨first, hfirst, hfirstWF, hfirstAlloc, hfirstNodes, hfirstMask⟩ :=
    hmFirstTable_spec hinv
  obtain ⟨newer, hinsert, hwf, hnodes, halloc, hmask, hsize⟩ :=
    hInsert_spec node hfirstWF hfirstAlloc
  rw [hfirstWF.counted, hfirstNodes, ← hinv.newer.counted] at hsize
  have hperm : (newer.nodes ++ hmap.older.nodes).Perm (node :: hmap.nodes) := by
    rw [hfirstNodes] at hnodes
    exact hnodes.append_right hmap.older.nodes
  refine ⟨first, newer, hfirst, hinsert, ⟨hwf, hinv.older, ?_, ?_, hinv.swept⟩,
    hperm, hsize, fun hnewer => hmask.trans (hfirstMask hnewer)⟩
  · exact hperm.nodup_iff.mpr (List.nodup_cons.mpr ⟨hfresh, hinv.nodup⟩)
  · intro holder
    obtain ⟨hnewer, hdouble⟩ := hinv.target holder
    refine ⟨halloc, ?_⟩
    simp only
    rw [hmask, hfirstMask hnewer, hdouble]

theorem hmInsert_spec {node : α} (hinv : hmap.Inv hcode)
    (hfresh : node ∉ hmap.nodes) :
    ∃ hmap', hmInsert hcode hmap node = some hmap' ∧ hmap'.Inv hcode ∧
      hmap'.nodes.Perm (node :: hmap.nodes) := by
  obtain ⟨first, newer, hfirst, hinsert, hlinked, hperm, _⟩ :=
    hmLink_spec hinv hfresh
  obtain ⟨grown, hgrow, hgrownInv, hgrownPerm⟩ := hmGrow_spec hlinked
  obtain ⟨hmap', hhelp, hinv', hperm', _⟩ := hmHelpRehashing_spec hgrownInv
  refine ⟨hmap', ?_, hinv', hperm'.trans (hgrownPerm.trans hperm)⟩
  simp only [hmInsert, hfirst, Option.bind_eq_bind, Option.bind_some, hinsert,
    hgrow, hhelp]

def Found (hcode : α → UInt64) (key : Probe α) (nodes : List α) :
    Option α → Prop
  | none => ∀ node ∈ nodes, ¬ key.Matches hcode node
  | some node => node ∈ nodes ∧ key.Matches hcode node

theorem HMap.Inv.search (key : Probe α) (hinv : hmap.Inv hcode) :
    (hLookup hcode hmap.newer key = some none ∧
      hLookup hcode hmap.older key = some none ∧
      Found hcode key hmap.nodes none) ∨
    (∃ link node, hLookup hcode hmap.newer key = some none ∧
      hLookup hcode hmap.older key = some (some link) ∧
      hmap.older.deref link = some node ∧
      Found hcode key hmap.nodes (some node)) ∨
    ∃ link node, hLookup hcode hmap.newer key = some (some link) ∧
      hmap.newer.deref link = some node ∧
      Found hcode key hmap.nodes (some node) := by
  rcases hLookup_spec key hinv.newer with
    ⟨hnewer, hnewerMiss⟩ | ⟨link, node, hnewer, hderef, hmatch⟩
  · rcases hLookup_spec key hinv.older with
      ⟨holder, holderMiss⟩ | ⟨link, node, holder, hderef, hmatch⟩
    · refine .inl ⟨hnewer, holder, ?_⟩
      intro node hnode
      rcases List.mem_append.mp hnode with hnode | hnode
      · exact hnewerMiss node hnode
      · exact holderMiss node hnode
    · have hmem := HTab.mem_nodes_of_deref hderef
      exact .inr (.inl ⟨link, node, hnewer, holder, hderef,
        List.mem_append_right _ hmem, hmatch⟩)
  · have hmem := HTab.mem_nodes_of_deref hderef
    exact .inr (.inr ⟨link, node, hnewer, hderef,
      List.mem_append_left _ hmem, hmatch⟩)

theorem Found.perm {key : Probe α} {nodes nodes' : List α} {found : Option α}
    (h : Found hcode key nodes found) (hperm : nodes.Perm nodes') :
    Found hcode key nodes' found := by
  cases found with
  | none => exact fun node hnode => h node (hperm.mem_iff.mpr hnode)
  | some node => exact ⟨hperm.mem_iff.mp h.1, h.2⟩

theorem hmLookup_spec (key : Probe α) (hinv : hmap.Inv hcode) :
    ∃ hmap' found, hmLookup hcode hmap key = some (hmap', found) ∧
      hmap'.Inv hcode ∧ hmap'.nodes.Perm hmap.nodes ∧
      Found hcode key hmap.nodes found := by
  obtain ⟨next, hhelp, hnext, hperm, _⟩ := hmHelpRehashing_spec hinv
  rcases hnext.search key with ⟨hnewer, holder, hfound⟩ |
    ⟨link, node, hnewer, holder, hderef, hfound⟩ |
    ⟨link, node, hnewer, hderef, hfound⟩
  · exact ⟨next, none, by simp [hmLookup, hhelp, hnewer, holder], hnext, hperm,
      hfound.perm hperm⟩
  · exact ⟨next, some node, by simp [hmLookup, hhelp, hnewer, holder, hderef],
      hnext, hperm, hfound.perm hperm⟩
  · exact ⟨next, some node, by simp [hmLookup, hhelp, hnewer, hderef], hnext,
      hperm, hfound.perm hperm⟩

theorem HMap.Inv.detach_newer {newer : HTab α} {node : α}
    (hinv : hmap.Inv hcode) (hwf : newer.WF hcode)
    (hnodes : hmap.newer.nodes.Perm (node :: newer.nodes))
    (halloc : newer.tab.isSome) (hmask : newer.mask = hmap.newer.mask) :
    ({ hmap with newer := newer } : HMap α).Inv hcode ∧
      hmap.nodes.Perm (node :: ({ hmap with newer := newer } : HMap α).nodes) := by
  have hperm : hmap.nodes.Perm (node :: (newer.nodes ++ hmap.older.nodes)) :=
    hnodes.append_right hmap.older.nodes
  refine ⟨⟨hwf, hinv.older, ?_, ?_, hinv.swept⟩, hperm⟩
  · exact (List.nodup_cons.mp (hperm.nodup_iff.mp hinv.nodup)).2
  · intro holder
    exact ⟨halloc, by rw [hmask, (hinv.target holder).2]⟩

theorem HMap.Inv.detach_older {older : HTab α} {node : α}
    (hinv : hmap.Inv hcode) (hwf : older.WF hcode)
    (hnodes : hmap.older.nodes.Perm (node :: older.nodes))
    (hbefore : hmap.older.tab.isSome) (hmask : older.mask = hmap.older.mask)
    (hsub : ∀ (i : Nat) (chain : List α), older.chains[i]? = some chain →
      ∃ before, hmap.older.chains[i]? = some before ∧ chain.Sublist before) :
    ({ hmap with older := older } : HMap α).Inv hcode ∧
      hmap.nodes.Perm (node :: ({ hmap with older := older } : HMap α).nodes) := by
  have hperm : hmap.nodes.Perm (node :: (hmap.newer.nodes ++ older.nodes)) :=
    (hnodes.append_left hmap.newer.nodes).trans List.perm_middle
  refine ⟨⟨hinv.newer, hwf, ?_, ?_, ?_⟩, hperm⟩
  · exact (List.nodup_cons.mp (hperm.nodup_iff.mp hinv.nodup)).2
  · intro _
    rw [hmask]
    exact hinv.target hbefore
  · intro i chain hi hchain
    obtain ⟨before, hslot, hsublist⟩ := hsub i chain hchain
    rw [hinv.swept i before hi hslot] at hsublist
    exact List.sublist_nil.mp hsublist

def Removed (before after : List α) : Option α → Prop
  | none => after.Perm before
  | some node => before.Perm (node :: after)

theorem hmDelete_spec (key : Probe α) (hinv : hmap.Inv hcode) :
    ∃ hmap' found, hmDelete hcode hmap key = some (hmap', found) ∧
      hmap'.Inv hcode ∧ Found hcode key hmap.nodes found ∧
      Removed hmap.nodes hmap'.nodes found := by
  obtain ⟨next, hhelp, hnext, hperm, _⟩ := hmHelpRehashing_spec hinv
  rcases hnext.search key with ⟨hnewer, holder, hfound⟩ |
    ⟨link, node, hnewer, holder, hderef, hfound⟩ |
    ⟨link, node, hnewer, hderef, hfound⟩
  · exact ⟨next, none, by simp [hmDelete, hhelp, hnewer, holder], hnext,
      hfound.perm hperm, hperm⟩
  · obtain ⟨older, hdetach, hwf, hnodes, _, hmask, _, hsub⟩ :=
      hDetach_spec hnext.older hderef
    have hbefore : next.older.tab.isSome := by
      obtain ⟨tab, _, htab, _⟩ := HTab.deref_eq_some.mp hderef
      simp [htab]
    obtain ⟨hinv', hremoved⟩ :=
      hnext.detach_older hwf hnodes hbefore hmask hsub
    exact ⟨_, some node, by simp [hmDelete, hhelp, hnewer, holder, hdetach],
      hinv', hfound.perm hperm, hperm.symm.trans hremoved⟩
  · obtain ⟨newer, hdetach, hwf, hnodes, halloc, hmask, _⟩ :=
      hDetach_spec hnext.newer hderef
    obtain ⟨hinv', hremoved⟩ := hnext.detach_newer hwf hnodes halloc hmask
    exact ⟨_, some node, by simp [hmDelete, hhelp, hnewer, hdetach], hinv',
      hfound.perm hperm, hperm.symm.trans hremoved⟩

end MiniRedis.Store
